import Strongbox.Cipher.Key
import Strongbox.Proofs.Store.Making

/-!
# The order of the times of a record

A clock may stand still or go back.  However it runs, creating and setting documents writes no
record that was updated before it was created.  Incrementing a counter does, if the clock has
gone back since the counter was created.  The main statements are `Watch.isOrdered_of_run`, that
there is no other way, and `Watch.IsTracked.not_isOrdered_of_increment`, that this is one.
-/

set_option autoImplicit false

namespace Strongbox

open Time (Instant)

namespace Time.Instant

/-- An instant is not after itself. -/
theorem le_refl (x : Instant) : x.le x = true := by simp [le]

/-- Of two instants one is not after the other. -/
theorem le_total (x y : Instant) : x.le y = true ∨ y.le x = true := by
  simp only [le, Bool.or_eq_true, Bool.and_eq_true, decide_eq_true_eq, beq_iff_eq]
  omega

/-- The later of two instants is not before the second. -/
theorem le_later (x y : Instant) : y.le (later x y) = true := by
  unfold later
  by_cases h : x.le y = true
  · rw [if_pos h]
    exact le_refl y
  · rw [if_neg h]
    exact (le_total x y).resolve_left h

end Time.Instant

namespace Record

/-- The record was updated at the time of its creation or after it. -/
def IsOrdered (r : Record) : Prop := r.createdAt.le r.updatedAt = true

instance (r : Record) : Decidable r.IsOrdered := inferInstanceAs (Decidable (_ = true))

/-- The record is that of a counter, created at one reading of the clock and written at a later
one that shows an earlier time. -/
structure IsSetBack (readings : Nat → Instant) (r : Record) : Prop where
  counter : ∃ next, r.fields = Counter.fieldsFor next
  back : ∃ i j, i < j ∧ readings i = r.createdAt ∧ readings j = r.updatedAt ∧
    (readings i).le (readings j) = false

end Record

namespace Watch

/-- Every record was created at a reading that the clock has shown, and is ordered unless the
clock has gone back. -/
structure IsChronicle (a : Aead) (readings : Nat → Instant) (w : Watch) : Prop where
  tracked : w.IsTracked a
  clock : w.fleet.ambient.clock.readings = readings
  past : ∀ x ∈ w.log, ∃ i < w.fleet.ambient.clock.taken, readings i = x.record.createdAt
  order : ∀ x ∈ w.log, x.record.IsOrdered ∨ x.record.IsSetBack readings

namespace IsChronicle

variable {a : Aead} {readings : Nat → Instant} {w : Watch}

/-- The record that a command makes at a reading `n`, after those that were shown before. -/
theorem of_makes (h : w.IsChronicle a readings) {c : Command} {n : Nat}
    (hn : w.fleet.ambient.clock.taken ≤ n) {r : Record}
    (hmakes : c.Makes a w.fleet.ambient.engine (readings n) r) :
    (∃ i ≤ n, readings i = r.createdAt) ∧ (r.IsOrdered ∨ r.IsSetBack readings) := by
  have hnew : ∀ path fields,
      (Record.mk path fields (readings n) (readings n)).IsOrdered := fun _ _ =>
    Instant.le_refl _
  cases hmakes with
  | create _ => exact ⟨⟨n, Nat.le_refl n, rfl⟩, .inl (hnew _ _)⟩
  | setFirst _ _ => exact ⟨⟨n, Nat.le_refl n, rfl⟩, .inl (hnew _ _)⟩
  | firstBatch _ _ _ => exact ⟨⟨n, Nat.le_refl n, rfl⟩, .inl (hnew _ _)⟩
  | setNext _ hread =>
    obtain ⟨x, hx, rfl⟩ := h.tracked.exists_of_record? hread
    obtain ⟨i, hi, hcreated⟩ := h.past x hx
    exact ⟨⟨i, by omega, hcreated⟩, .inl (Instant.le_later _ _)⟩
  | @nextBatch ctx raw next r _ _ hread =>
    -- Only here the time is taken as it is read.
    obtain ⟨x, hx, rfl⟩ := h.tracked.exists_of_record? hread
    obtain ⟨i, hi, hcreated⟩ := h.past x hx
    refine ⟨⟨i, by omega, hcreated⟩, ?_⟩
    by_cases hle : (readings i).le (readings n) = true
    · rw [hcreated] at hle
      exact .inl hle
    · exact .inr ⟨⟨next, rfl⟩, i, n, by omega, hcreated, rfl, by simpa using hle⟩

/-- A command goes on with a chronicle, as it reads the clock after all that was read before. -/
theorem command (ha : a.Lawful) (h : w.IsChronicle a readings) (i : Nat) {c : Command}
    (hc : c.IsLegible) : (w.command a i c).IsChronicle a readings := by
  have hyields := c.yields_run (s := w.fleet.scene i) ha (h.tracked.cipher i)
  have htaken : w.fleet.ambient.clock.taken ≤ (w.command a i c).fleet.ambient.clock.taken :=
    (c.leads_run a (w.fleet.scene i)).taken_le
  refine ⟨h.tracked.command ha i hc, hyields.readings.trans h.clock, ?_, ?_⟩
  · apply forall_log_command (P := fun r =>
      ∃ n < (w.command a i c).fleet.ambient.clock.taken, readings n = r.createdAt) h.tracked.cipher
    · intro x hx
      obtain ⟨n, hn, hcreated⟩ := h.past x hx
      exact ⟨n, Nat.lt_of_lt_of_le hn htaken, hcreated⟩
    · rintro time r ⟨n, hfrom, hto, rfl⟩ hmakes
      rw [h.clock] at hmakes
      obtain ⟨m, hm, hcreated⟩ := (h.of_makes hfrom hmakes).1
      exact ⟨m, Nat.lt_of_le_of_lt hm hto, hcreated⟩
  · apply forall_log_command (P := fun r => r.IsOrdered ∨ r.IsSetBack readings) h.tracked.cipher
      h.order
    rintro time r ⟨n, hfrom, -, rfl⟩ hmakes
    rw [h.clock] at hmakes
    exact (h.of_makes hfrom hmakes).2

end IsChronicle

/-- A run of commands from a new fleet is a chronicle of the readings of its clock. -/
theorem isChronicle_perform (k : Key) {w : Watch} (hw : w.IsNew) {steps : List (Nat × Command)}
    (hsteps : ∀ q ∈ steps, q.2.IsLegible) :
    (w.perform k.cipher steps).IsChronicle k.cipher w.fleet.ambient.clock.readings := by
  have hstart : w.IsChronicle k.cipher w.fleet.ambient.clock.readings := by
    refine ⟨hw.isTracked, rfl, ?_, ?_⟩
    · simp [hw.log]
    · simp [hw.log]
  exact perform_induction hstart fun _ i _ hmem h => h.command k.lawful_cipher i (hsteps _ hmem)

/-- The readings of a clock that goes back from two seconds to one are proper. -/
theorem isProper_one_two : ∀ t ∈ [(⟨2, 0⟩ : Instant), ⟨1, 0⟩], t.IsProper := by
  simp only [List.forall_mem_cons, Instant.IsProper, Instant.isRepresentable,
    Time.Date.minDays_eq, Time.Date.maxDays_eq]
  decide

/-- However the clock runs, with proper readings, after every run of commands from an empty engine
every stored record was updated at or after its creation, unless it is that of a counter and the
clock went back between its creation and its last batch.  The fields that the commands are given
are legible: their names stand in order, and the numbers in them are read as they were written, so
that every stored record is the one that was written. -/
theorem isOrdered_of_run (k : Key) {w : Watch} (hw : w.IsNew) {steps : List (Nat × Command)}
    (hsteps : ∀ q ∈ steps, q.2.IsLegible) {key : String} {c : Bytes}
    (hc : (w.perform k.cipher steps).fleet.ambient.engine.Holds key c) :
    ∃ r : Record, Stream.decrypt k.cipher c = .ok r.toBytes ∧
      (∀ s, Record.parse r.toBytes = .ok s → s = r) ∧
      (r.IsOrdered ∨ r.IsSetBack w.fleet.ambient.clock.readings) := by
  have hrun := isChronicle_perform k hw hsteps
  obtain ⟨x, hx, hdecrypt⟩ := hrun.tracked.held key c hc
  refine ⟨x.record, hdecrypt, ?_, hrun.order x hx⟩
  intro s hparse
  exact (Record.eq_of_isProper (hrun.tracked.log x hx) hparse).symm

/-- A document is created, deleted, and created again after the clock has gone back. -/
theorem isOrdered_of_recreated :
    let w := fresh (.scripted [⟨2, 0⟩, ⟨1, 0⟩])
    let steps : List (Nat × Command) := [(0, .openStore .background),
      (0, .create .background "a" []), (0, .delete .background "a"),
      (0, .create .background "a" [])]
    w.IsNew ∧ (∀ q ∈ steps, q.2.IsLegible) ∧
      ∃ c, (w.perform (Key.uniform 7).cipher steps).fleet.ambient.engine.Holds "/a" c ∧
        ∃ r : Record, Stream.decrypt (Key.uniform 7).cipher c = .ok r.toBytes ∧
          (∀ s, Record.parse r.toBytes = .ok s → s = r) ∧
          (r.IsOrdered ∨ r.IsSetBack w.fleet.ambient.clock.readings) := by
  intro w steps
  have hw : w.IsNew := isNew_fresh (Clock.isProper_scripted isProper_one_two)
  have hsteps : ∀ q ∈ steps, q.2.IsLegible := by
    have hfields : Fields.IsLegible [] := ⟨List.Pairwise.nil, trivial⟩
    simp [steps, Command.IsLegible, Command.Gives, hfields]
  have hheld : ((w.perform (Key.uniform 7).cipher steps).fleet.ambient.engine.value? "/a").isSome =
      true := by
    unfold w steps
    decide +kernel
  obtain ⟨c, hc⟩ := Option.isSome_iff_exists.1 hheld
  have hc := Contents.holds_of_value? hc
  exact ⟨hw, hsteps, c, hc, isOrdered_of_run (Key.uniform 7) hw hsteps hc⟩

end Watch

/-! ## Setting a counter back -/

namespace Store

open StoreCall

/-- The next batch of a counter that the session has not used yet. -/
theorem incrementDraft_of_counter {s : Scene} {session : Session} {raw : String} {r : Record}
    {n : Nat} (hopen : s.store.session = some session) (hs : s.ambient.engine.IsHealthy)
    (hroot : Path.isRoot raw = false)
    (hcursor : session.cursors.find? (Path.normalize raw) = none)
    (hread : s.ambient.engine.record? session.cipher (Path.normalize raw) = .ok (some r))
    (hcounter : Counter.stored? r.fields = some n) (hlimit : n + 1000 < Cursor.wordLimit) :
    ∃ t, incrementDraft .background raw s = .ok (some ⟨session.cipher, ⟨Path.normalize raw,
      Counter.fieldsFor (n + 1000), r.createdAt,
      s.ambient.clock.readings s.ambient.clock.taken⟩⟩) t := by
  have hrecord : readRecord session.cipher (Path.normalize raw)
      { s with ambient := { s.ambient with boundaries := s.ambient.boundaries + 1 } } =
        .ok (some r) _ := readRecord_of_isHealthy hs hread
  have hstart : batchStart (Path.normalize raw) (some r) = pure n := by
    unfold batchStart
    dsimp only
    rw [hcounter]
  unfold incrementDraft
  rw [opening_of_isOpen hopen hroot]
  unfold batchDraft
  rw [hcursor]
  unfold batchDraft.reserved reserveDraft
  dsimp only
  rw [bind_assoc, Call.bind_ok hrecord, hstart, pure_bind, Cursor.reserve_of_lt hlimit]
  exact ⟨_, rfl⟩

end Store

namespace Watch

variable {a : Aead} {w : Watch}

/-- What is stored at a path is read, if nothing else was written and nothing too deep. -/
theorem IsTracked.exists_record? (h : w.IsTracked a) {path : String}
    (hstored : (w.fleet.ambient.engine.value? path).isSome)
    (hlog : ∀ x ∈ w.log, x.record.path = path ∧ x.record.fields.IsShallow) :
    ∃ x ∈ w.log, w.fleet.ambient.engine.record? a path = .ok (some x.record) := by
  obtain ⟨c, hc⟩ := Option.isSome_iff_exists.1 hstored
  obtain ⟨x, hx, hdecrypt⟩ := h.held path c (Contents.holds_of_value? hc)
  obtain ⟨rfl, hshallow⟩ := hlog x hx
  exact ⟨x, hx, Engine.record?_of_value (h.log x hx) hshallow hdecrypt hc⟩

/-- Whenever the clock has gone back behind the creation of a counter, its next batch writes a
record that is out of order. -/
theorem IsTracked.not_isOrdered_of_increment (h : w.IsTracked a) (ha : a.Lawful)
    (hsteady : w.fleet.ambient.engine.IsSteady) {i : Nat} {session : Session} {raw : String}
    {r : Record} {n : Nat} (hopen : (w.fleet.stores i).session = some session)
    (hroot : Path.isRoot raw = false)
    (hcursor : session.cursors.find? (Path.normalize raw) = none)
    (hread : w.fleet.ambient.engine.record? a (Path.normalize raw) = .ok (some r))
    (hcounter : Counter.stored? r.fields = some n) (hlimit : n + 1000 < Cursor.wordLimit)
    (hback : r.createdAt.le
      (w.fleet.ambient.clock.readings w.fleet.ambient.clock.taken) = false)
    (hfits : Stream.Fits (Record.mk (Path.normalize raw) (Counter.fieldsFor (n + 1000)) r.createdAt
      (w.fleet.ambient.clock.readings w.fleet.ambient.clock.taken)).toBytes) :
    ∃ s, (w.command a i (.increment .background raw)).fleet.ambient.engine.record? a
      (Path.normalize raw) = .ok (some s) ∧ ¬ s.IsOrdered := by
  have hsame : session.cipher = a := h.cipher i session hopen
  obtain ⟨t, hdraft⟩ := Store.incrementDraft_of_counter (s := w.fleet.scene i) hopen
    hsteady.isHealthy hroot hcursor (hsame ▸ hread) hcounter hlimit
  let x : Writing := ⟨t.ambient.entropy, _, hfits⟩
  have hwriting : (Command.increment .background raw).writing (w.fleet.scene i) = some x := by
    show StoreCall.writingOf (Store.incrementDraft .background raw) _ = _
    unfold StoreCall.writingOf
    rw [hdraft]
    exact dif_pos hfits
  have hproper : x.record.IsProper := by
    obtain ⟨y, hy, rfl⟩ := h.exists_of_record? hread
    exact ⟨(Counter.readsBack_fieldsFor hlimit).1, (h.log y hy).createdAt, h.clock _⟩
  have hshallow : x.record.fields.IsShallow := (Counter.readsBack_fieldsFor hlimit).2
  have hwritten := Command.record?_of_writing ha hsteady (h.cipher i) hwriting hproper hshallow
  have hlate : ¬ x.record.IsOrdered := by simp [Record.IsOrdered, x, hback]
  exact ⟨x.record, hwritten, hlate⟩

/-- A counter is created two seconds after the epoch, and its first identifier is drawn when the
clock shows one second. -/
theorem not_isOrdered_of_clock_back :
    let a := (Key.uniform 7).cipher
    let w := fresh (.scripted [⟨2, 0⟩, ⟨1, 0⟩])
    let steps : List (Nat × Command) := [(0, .openStore .background),
      (0, .create .background "/a" [("counter", .number (.integer 0))]),
      (0, .increment .background "/a")]
    w.IsNew ∧ (∀ q ∈ steps, q.2.IsLegible) ∧
      ∃ r, (w.perform a steps).fleet.ambient.engine.record? a "/a" = .ok (some r) ∧
        ¬ r.IsOrdered := by
  intro a w steps
  have hw : w.IsNew := isNew_fresh (Clock.isProper_scripted isProper_one_two)
  have hcounter : Fields.IsLegible [("counter", .number (.integer 0))] :=
    (Counter.readsBack_fieldsFor (show 0 < Cursor.wordLimit by decide)).1
  have hsteps : ∀ q ∈ steps, q.2.IsLegible := by
    simp [steps, Command.IsLegible, Command.Gives, hcounter]
  let created := w.perform a [(0, .openStore .background),
    (0, .create .background "/a" [("counter", .number (.integer 0))])]
  have ha : a.Lawful := (Key.uniform 7).lawful_cipher
  have hrun : created.IsChronicle a w.fleet.ambient.clock.readings := by
    apply isChronicle_perform (Key.uniform 7) hw
    simp [Command.IsLegible, Command.Gives, hcounter]
  have hsteady : created.fleet.ambient.engine.IsSteady := isSteady_perform a _ (isSteady_fresh _)
  have hcreated : ((created.fleet.ambient.engine.value? "/a").isSome ∧
      created.fleet.ambient.clock.taken = 1) ∧
      (created.fleet.stores 0).session.map (fun s => s.cursors.find? "/a" == none) = some true ∧
      ∀ x ∈ created.log, (x.record.path = "/a" ∧ x.record.fields.IsShallow) ∧
        x.record.createdAt = ⟨2, 0⟩ ∧ Counter.stored? x.record.fields = some 0 := by
    unfold created w a
    decide +kernel
  obtain ⟨⟨hheld, htaken⟩, hsession, hlog⟩ := hcreated
  obtain ⟨x, hx, hread⟩ := hrun.tracked.exists_record? hheld fun x hx => (hlog x hx).1
  obtain ⟨-, htime, hstored⟩ := hlog x hx
  obtain ⟨session, hopen, hfind⟩ := Option.map_eq_some_iff.1 hsession
  have hcursor : session.cursors.find? "/a" = none := by simpa using hfind
  have hback : created.fleet.ambient.clock.readings created.fleet.ambient.clock.taken = ⟨1, 0⟩ := by
    rw [hrun.clock, htaken]
    rfl
  have hroot : Path.isRoot "/a" = false := by decide
  have hnormal : Path.normalize "/a" = "/a" := by decide
  have hlate := hrun.tracked.not_isOrdered_of_increment ha hsteady hopen hroot
    (by rwa [hnormal]) (by rwa [hnormal]) hstored (by decide) (by rw [hback, htime]; decide)
    (by rw [hback, htime]; decide +kernel)
  rw [hnormal] at hlate
  exact ⟨hw, hsteps, hlate⟩

end Watch

end Strongbox
