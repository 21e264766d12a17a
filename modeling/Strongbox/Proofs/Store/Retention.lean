import Strongbox.Proofs.Store.Making
import Strongbox.Proofs.Store.Window

/-!
# What was written is kept

Over an engine without faults a store finds at every stored path the record that was last written
there.  A record whose fields are nested too deep is written all the same, but it is not read:
getting it, setting it and every listing that comes to it fail.  The main statement is
`Watch.serves_of_run`.
-/

set_option autoImplicit false

namespace Strongbox

/-! ## Last entries -/

/-- Where every key is text, a walk downwards is answered. -/
theorem LogDirectory.exists_descend (stem : String) {bs : List (Bytes × Bytes)}
    (h : ∀ b ∈ bs, ∃ e, meet b = .ok e) : ∃ x, descend stem bs = .ok x := by
  induction bs with
  | nil => exact ⟨none, rfl⟩
  | cons b bs ih =>
    obtain ⟨⟨key, value⟩, hmeet⟩ := h b List.mem_cons_self
    obtain ⟨x, hx⟩ := ih fun d hd => h d (List.mem_cons_of_mem _ hd)
    simp only [descend, hmeet, hx]
    split_ifs <;> exact ⟨_, rfl⟩

/-- Whole contents with text keys show their last entry, or that there is none. -/
theorem Contents.exists_last {c : Contents} (h : c.IsWhole) (htext : c.HasTextKeys)
    (stem : String) : ∃ x, c.last stem = .ok x := by
  cases c with
  | volatile t => exact ⟨_, rfl⟩
  | treeFile t => exact ⟨_, rfl⟩
  | logDirectory d =>
    have hblocked : d.isBlockedDown = false := by
      unfold LogDirectory.isBlockedDown
      rw [List.any_eq_false]
      intro r hr
      simp [h r hr]
    unfold last LogDirectory.last?
    dsimp only
    rw [hblocked, if_neg Bool.false_ne_true]
    apply LogDirectory.exists_descend
    intro b hb
    have hmem : b ∈ d.entries.entries := by
      unfold LogDirectory.downFrom at hb
      split at hb
      · exact List.mem_reverse.1 ((List.dropWhile_suffix _).subset hb)
      · exact List.mem_reverse.1 hb
    obtain ⟨key, hkey⟩ := htext b hmem
    exact ⟨(key, b.2), by simp [LogDirectory.meet, hkey]⟩

/-- An engine without faults answers with an entry that it holds, if with any. -/
theorem Engine.IsSteady.last {e : Engine} (h : e.IsSteady) (stem : String) :
    ∃ x, Engine.last stem e = .ok x e ∧ ∀ f, x = some f → e.value? f.1 = some f.2 := by
  obtain ⟨x, hx⟩ := Contents.exists_last h.isHealthy.isWhole h.hasTextKeys stem
  refine ⟨x, ?_, ?_⟩
  · unfold Engine.last
    rw [Call.bind_ok (h.isHealthy.consult .last stem)]
    unfold inspect
    rw [if_pos h.isHealthy.isReachable]
    dsimp only
    rw [hx]
  · rintro f rfl
    exact Contents.holds_iff.1 (Contents.holds_of_last hx)

/-! ## Answers over an engine without faults -/

/-- The entry at a path reads as the record there does. -/
theorem Engine.map_read (a : Aead) (path : String) (e : Engine) :
    (e.value? path).map (fun c => Entry.read a (path, c)) =
      match e.record? a path with
      | .ok x => x.map fun r => .ok r.toDocument
      | .error error => some (.error error) := by
  unfold record? plaintext?
  cases e.value? path with
  | none => rfl
  | some c =>
    dsimp only [Option.map_some]
    rw [Entry.read_eq]
    cases Stream.decrypt a c with
    | error cause => rfl
    | ok plaintext =>
      cases hbytes : Record.ofBytes path plaintext with
      | error error => simp [Except.map, hbytes]
      | ok r => simp [Except.map, hbytes]

namespace Store

open StoreCall

/-- A writing that can fail only because the record is too long for the cipher. -/
def Accepts (path : String) (x : Except StoreError Unit) : Prop :=
  x = .ok () ∨ x = .error (.encryption path (.encryption Stream.refusal))

variable {s : Scene} {session : Session} (hopen : s.store.session = some session)

include hopen

/-- The last document of a range is that of an entry of the engine, as this entry reads. -/
theorem answer_last (hs : s.ambient.engine.IsSteady)
    (hdecrypt : ∀ key c, s.ambient.engine.value? key = some c →
      ∃ plaintext, Stream.decrypt session.cipher c = .ok plaintext) (stem : String) :
    Call.answer (last .background stem s) = .ok none ∨
      ∃ e : Entry, s.ambient.engine.value? e.1 = some e.2 ∧
        Call.answer (last .background stem s) = (Entry.read session.cipher e).map some := by
  obtain ⟨t, ht, hboundary⟩ := boundary_background s
  have hsession : openSession t = .ok session t :=
    openSession_of_isOpen (by rw [ht.store, hopen])
  obtain ⟨x, hlast, hx⟩ := hs.last (Path.anchored stem)
  rw [← ht.engine] at hlast
  have hcall := Barrier.onEngine_ok hlast
  unfold last
  rw [Call.bind_ok hboundary, Call.bind_ok hsession]
  cases x with
  | none =>
    have hnone : onBarrier (Path.anchored stem) (Barrier.last session.cipher (Path.anchored stem))
        t = .ok none t := onBarrier_ok (Call.bind_ok hcall)
    rw [Call.bind_ok hnone]
    exact .inl rfl
  | some e =>
    -- A value that is not decrypted would be told of under the range, not under its key.
    obtain ⟨plaintext, hplain⟩ := hdecrypt e.1 e.2 (hx e rfl)
    have hsome : onBarrier (Path.anchored stem) (Barrier.last session.cipher (Path.anchored stem))
        t = .ok (some (e.1, plaintext)) t := by
      refine onBarrier_ok ((Call.bind_ok hcall).trans ?_)
      dsimp only
      rw [Call.bind_ok (Barrier.decrypt_ok hplain _)]
      rfl
    refine .inr ⟨e, hx e rfl, ?_⟩
    rw [Call.bind_ok hsome]
    rw [Entry.read_eq, hplain]
    dsimp only
    cases hbytes : Record.ofBytes e.1 plaintext with
    | ok r =>
      rw [Call.bind_ok (decode_ok hbytes t)]
      rfl
    | error error =>
      obtain ⟨u, -, hdecode⟩ := decode_error hbytes t
      rw [Call.bind_error hdecode]
      rfl

section Setting

variable (hs : s.ambient.engine.IsHealthy) {raw : String} (hroot : Path.isRoot raw = false)
  (fields : Fields) (mode : WriteMode)

include hs hroot

/-- Setting a document begins with reading the record that is stored at its path. -/
theorem setDraft_cases :
    (∃ e t, s.ambient.engine.record? session.cipher (Path.normalize raw) = .error e ∧
      setDraft .background raw fields mode s = .error e t) ∨
    ∃ x d t, s.ambient.engine.record? session.cipher (Path.normalize raw) = .ok x ∧
      setDraft .background raw fields mode s = .ok d t ∧ d.cipher = session.cipher ∧
      d.record.path = Path.normalize raw ∧ t.ambient.engine = s.ambient.engine := by
  let u : Scene := { s with ambient := { s.ambient with
    boundaries := s.ambient.boundaries + 1, clock := s.ambient.clock.read.2 } }
  have hnow : now { s with ambient := { s.ambient with boundaries := s.ambient.boundaries + 1 } } =
    .ok (s.ambient.clock.readings s.ambient.clock.taken) u := rfl
  have hread : Call.answer (readRecord session.cipher (Path.normalize raw) u) =
      s.ambient.engine.record? session.cipher (Path.normalize raw) := answer_readRecord hs
  unfold setDraft
  rw [opening_of_isOpen hopen hroot, Call.bind_ok hnow, ← hread]
  cases hrun : readRecord session.cipher (Path.normalize raw) u with
  | error e v => exact .inl ⟨e, v, rfl, Call.bind_error hrun⟩
  | ok x v =>
    rw [hrun] at hread
    have hsame := readRecord_of_isHealthy (s := u) hs hread.symm
    rw [hrun] at hsame
    injection hsame with _ hv
    subst hv
    refine .inr ⟨x, _, u, rfl, Call.bind_ok hrun, rfl, ?_, rfl⟩
    cases x with
    | none => rfl
    | some r =>
      have hpath : r.path = Path.normalize raw := Engine.path_of_record? hread.symm
      exact hpath

/-- A document is set exactly if the entry that is stored at its path is read. -/
theorem answer_set (ha : session.cipher.Lawful) :
    match (s.ambient.engine.value? (Path.normalize raw)).map fun c =>
        Entry.read session.cipher (Path.normalize raw, c) with
    | some (.error e) => Call.answer (set .background raw fields mode s) = .error e
    | _ => Accepts (Path.normalize raw) (Call.answer (set .background raw fields mode s)) := by
  rw [set_eq, Engine.map_read]
  rcases setDraft_cases hopen hs hroot fields mode with
    ⟨e, t, hrecord, hdraft⟩ | ⟨x, d, t, hrecord, hdraft, hcipher, hpath, hengine⟩
  · rw [hrecord, Call.bind_error hdraft]
    rfl
  · have hwritten : Accepts (Path.normalize raw)
        (Call.answer ((writeRecord d.cipher d.record >>= fun _ =>
          tell (.written (WriteMode.isMerge mode) d.record.path)) t)) := by
      rw [hcipher, ← hpath]
      rcases writeRecord_of_isHealthy ha (hengine ▸ hs) d.record with
        ⟨-, c, -, hwrite⟩ | ⟨-, hwrite⟩
      · rw [Call.bind_ok hwrite]
        exact .inl rfl
      · rw [Call.bind_error hwrite]
        exact .inr rfl
    rw [hrecord, Call.bind_ok hdraft]
    cases x <;> exact hwritten

end Setting

end Store

/-! ## Reading what was written -/

/-- What reading the bytes of a record gives: the document of the record found there, or a
failure. -/
def Record.reread (r : Record) : Except StoreError Document :=
  (ofBytes r.path r.toBytes).map fun s =>
    { path := r.path
      fields := s.fields
      createdAt := some s.createdAt
      updatedAt := some s.updatedAt }

/-- A record is read exactly if its fields are not nested too deep. -/
theorem Record.reread_cases {r : Record} (h : r.IsProper) :
    (r.fields.IsShallow ∧ r.reread =
        .ok { path := r.path
              fields := r.fields
              createdAt := some r.createdAt
              updatedAt := some r.updatedAt }) ∨
      (¬ r.fields.IsShallow ∧ ∃ reason, r.reread = .error (.codec r.path reason)) := by
  unfold reread ofBytes
  rcases parse_toBytes_cases h with ⟨hshallow, hok⟩ | ⟨hdeep, e, herror⟩
  · exact .inl ⟨hshallow, by simp [hok, Except.map]⟩
  · exact .inr ⟨hdeep, e.describe r.toBytes, by simp [herror, Except.map]⟩

/-- An entry with the encryption of a record reads as that record's bytes do. -/
theorem Entry.read_of_decrypt {a : Aead} {r : Record} {c : Bytes}
    (h : Stream.decrypt a c = .ok r.toBytes) : Entry.read a (r.path, c) = r.reread := by
  unfold Entry.read
  rw [h]
  rfl

/-- The number zero inside of `n` arrays. -/
def Json.Value.nested : Nat → Json.Value
  | 0 => .number (.integer 0)
  | n + 1 => .array [nested n]

/-- Nested arrays around a number are legible. -/
theorem Json.Value.legible_nested (n : Nat) : (nested n).Legible := by
  induction n with
  | zero => exact Json.readsBack_integer (by decide) (by decide)
  | succ n ih => exact ⟨ih, trivial⟩

/-- Fields with nested arrays are legible. -/
theorem Fields.isLegible_nested (n : Nat) : Fields.IsLegible [("nest", .nested n)] :=
  ⟨List.pairwise_singleton _ _, Json.Value.legible_nested n, trivial⟩

namespace Watch

/-- The record that was last written at a path. -/
def latest? (w : Watch) (path : String) : Option Record :=
  ((w.log.map Writing.record).filter fun r => r.path = path).getLast?

/-- The record that was last written at a path, if the path is stored. -/
def current? (w : Watch) (path : String) : Option Record :=
  if (w.fleet.ambient.engine.value? path).isSome then w.latest? path else none

variable {a : Aead} {w : Watch}

/-- The record last written at a path is one of the log, under that path. -/
theorem mem_of_latest? {path : String} {r : Record} (h : w.latest? path = some r) :
    r.path = path ∧ ∃ x ∈ w.log, x.record = r := by
  obtain ⟨hmem, hpath⟩ := List.mem_filter.1 (List.mem_of_getLast? h)
  exact ⟨by simpa using hpath, List.mem_map.1 hmem⟩

/-- So is the current record of a path. -/
theorem mem_of_current? {path : String} {r : Record} (h : w.current? path = some r) :
    r.path = path ∧ ∃ x ∈ w.log, x.record = r := by
  unfold current? at h
  split at h
  · exact mem_of_latest? h
  · simp at h

/-- One more writing is the latest at its own path and nowhere else. -/
theorem latest?_of_log {v : Watch} {x : Writing} (h : v.log = w.log ++ [x]) (path : String) :
    v.latest? path = if x.record.path = path then some x.record else w.latest? path := by
  unfold latest?
  by_cases hpath : x.record.path = path
  · simp [h, hpath]
  · simp [h, hpath]

/-- Every stored value is the encryption of the record that was last written at its path, over
an engine without faults. -/
structure IsRetained (a : Aead) (w : Watch) : Prop where
  tracked : w.IsTracked a
  steady : w.fleet.ambient.engine.IsSteady
  latest : ∀ path c, w.fleet.ambient.engine.value? path = some c →
    ∃ r, w.latest? path = some r ∧ Stream.decrypt a c = .ok r.toBytes

namespace IsRetained

/-- Every command with legible fields keeps a watch retained. -/
theorem command (ha : a.Lawful) (h : w.IsRetained a) (i : Nat) {c : Command} (hc : c.IsLegible) :
    (w.command a i c).IsRetained a := by
  refine ⟨h.tracked.command ha i hc, (c.leads_run a (w.fleet.scene i)).isSteady h.steady, ?_⟩
  intro path value hvalue
  -- Without faults, what is encrypted is stored: the log and the engine grow together.
  cases hwriting : c.writing (w.fleet.scene i) with
  | none =>
    have hlog : (w.command a i c).latest? path = w.latest? path := by
      unfold latest? Watch.command
      simp [hwriting]
    have hyields := c.yields_run (s := w.fleet.scene i) ha (h.tracked.cipher i)
    rw [hlog]
    apply h.latest
    rcases hyields.holds path value (Contents.holds_iff.2 hvalue) with hold | ⟨x, hx, -⟩
    · exact Contents.holds_iff.1 hold
    · simp [hwriting] at hx
  | some x =>
    obtain ⟨stored, hdecrypt, hcontents⟩ :=
      Command.put_of_writing ha h.steady (h.tracked.cipher i) hwriting
    have hlog : (w.command a i c).log = w.log ++ [x] := by
      unfold Watch.command
      simp [hwriting]
    have hnow : (w.fleet.ambient.engine.contents.put x.record.path stored).value? path =
        some value := by
      rw [← hvalue]
      exact congrArg (·.value? path) hcontents.symm
    rw [latest?_of_log hlog]
    by_cases hpath : x.record.path = path
    · rw [← hpath, Contents.value?_put_self] at hnow
      injection hnow with hnow
      exact ⟨x.record, if_pos hpath, hnow ▸ hdecrypt⟩
    · rw [Contents.value?_put_of_ne _ _ (Ne.symm hpath)] at hnow
      rw [if_neg hpath]
      exact h.latest path value hnow

variable (h : w.IsRetained a)

include h

/-- What is stored at a path is the record that was last written there. -/
theorem cases_current? (path : String) :
    (w.fleet.ambient.engine.value? path = none ∧ w.current? path = none) ∨
      ∃ r c, w.fleet.ambient.engine.value? path = some c ∧ w.current? path = some r ∧
        Entry.read a (path, c) = r.reread := by
  unfold current?
  cases hvalue : w.fleet.ambient.engine.value? path with
  | none => exact .inl ⟨rfl, rfl⟩
  | some c =>
    obtain ⟨r, hlatest, hdecrypt⟩ := h.latest path c hvalue
    obtain ⟨rfl, -⟩ := mem_of_latest? hlatest
    exact .inr ⟨r, c, rfl, hlatest, Entry.read_of_decrypt hdecrypt⟩

end IsRetained

/-- What an open store answers: at every path it finds the record that was last written there,
if the path is stored, and reads it. -/
structure Serves (w : Watch) (i : Nat) : Prop where
  get : ∀ raw, Call.answer (Store.get .background raw (w.fleet.scene i)) =
    match w.current? (Path.normalize raw) with
    | none => .ok none
    | some r => r.reread.map some
  last : ∀ stem, Call.answer (Store.last .background stem (w.fleet.scene i)) = .ok none ∨
    ∃ path r, w.current? path = some r ∧
      Call.answer (Store.last .background stem (w.fleet.scene i)) = r.reread.map some
  documents : ∀ parent (window : Window), window.pathsOnly = false →
    ∃ rs : List Record, (∀ r ∈ rs, w.current? r.path = some r) ∧
      rs.map Record.path =
        (window.of parent w.fleet.ambient.engine.contents.entries).map Prod.fst ∧
      Call.answer (Store.documents .background parent window (w.fleet.scene i)) =
        (rs.mapM Record.reread).map some
  set : ∀ raw fields mode, Path.isRoot raw = false →
    match (w.current? (Path.normalize raw)).map Record.reread with
    | some (.error e) =>
      Call.answer (Store.set .background raw fields mode (w.fleet.scene i)) = .error e
    | _ => Store.Accepts (Path.normalize raw)
      (Call.answer (Store.set .background raw fields mode (w.fleet.scene i)))

namespace IsRetained

variable (h : w.IsRetained a)

include h

/-- Entries that the engine holds read as the current records of their keys. -/
theorem exists_reread {es : List Entry}
    (hes : ∀ e ∈ es, w.fleet.ambient.engine.value? e.1 = some e.2) :
    ∃ rs : List Record, (∀ r ∈ rs, w.current? r.path = some r) ∧
      rs.map Record.path = es.map Prod.fst ∧
      es.mapM (Entry.read a) = rs.mapM Record.reread := by
  induction es with
  | nil => exact ⟨[], by simp⟩
  | cons e es ih =>
    obtain ⟨rs, hcurrent, hpaths, hreads⟩ := ih fun d hd => hes d (List.mem_cons_of_mem e hd)
    have hvalue := hes e List.mem_cons_self
    rcases h.cases_current? e.1 with ⟨hnone, -⟩ | ⟨r, c, hsome, hr, hread⟩
    · simp [hvalue] at hnone
    · obtain rfl : e.2 = c := by simpa [hvalue] using hsome
      have hpath := (mem_of_current? hr).1
      refine ⟨r :: rs, ?_, by simp [hpath, hpaths], ?_⟩
      · rw [List.forall_mem_cons, hpath]
        exact ⟨hr, hcurrent⟩
      · rw [List.mapM_cons, List.mapM_cons, hreads]
        exact congrArg (· >>= _) hread

section Answers

variable {i : Nat} {session : Session} (hopen : (w.fleet.stores i).session = some session)

include hopen

/-- `get` answers the current record of its path as it reads back. -/
theorem answer_get (raw : String) :
    Call.answer (Store.get .background raw (w.fleet.scene i)) =
      match w.current? (Path.normalize raw) with
      | none => .ok none
      | some r => r.reread.map some := by
  have hget := Store.answer_get (s := w.fleet.scene i) hopen h.steady.isHealthy raw
  rw [h.tracked.cipher i session hopen] at hget
  rcases h.cases_current? (Path.normalize raw) with
    ⟨hvalue, hcurrent⟩ | ⟨r, c, hvalue, hcurrent, hread⟩
  · rw [show (w.fleet.scene i).ambient.engine.value? _ = none from hvalue] at hget
    rw [hget, hcurrent]
  · rw [show (w.fleet.scene i).ambient.engine.value? _ = some c from hvalue] at hget
    rw [hget, hcurrent]
    dsimp only
    rw [hread]

/-- `last` answers a current record as it reads back, or none. -/
theorem answer_last (stem : String) :
    Call.answer (Store.last .background stem (w.fleet.scene i)) = .ok none ∨
      ∃ path r, w.current? path = some r ∧
        Call.answer (Store.last .background stem (w.fleet.scene i)) = r.reread.map some := by
  have hsame : session.cipher = a := h.tracked.cipher i session hopen
  have hdecrypt : ∀ key c, w.fleet.ambient.engine.value? key = some c →
      ∃ plaintext, Stream.decrypt session.cipher c = .ok plaintext := by
    intro key c hvalue
    obtain ⟨r, -, hdecrypt⟩ := h.latest key c hvalue
    exact ⟨r.toBytes, hsame ▸ hdecrypt⟩
  rcases Store.answer_last (s := w.fleet.scene i) hopen h.steady hdecrypt stem with
    hnone | ⟨e, hvalue, hlast⟩
  · exact .inl hnone
  · rcases h.cases_current? e.1 with ⟨hnone, -⟩ | ⟨r, c, hsome, hcurrent, hread⟩
    · exact absurd (hnone.symm.trans hvalue) (by simp)
    · obtain rfl : c = e.2 := by simpa using hsome.symm.trans hvalue
      rw [hsame, hread] at hlast
      exact .inr ⟨e.1, r, hcurrent, hlast⟩

/-- `documents` answers the current records of its window as they read back. -/
theorem answer_documents (parent : String) {window : Window} (hdata : window.pathsOnly = false) :
    ∃ rs : List Record, (∀ r ∈ rs, w.current? r.path = some r) ∧
      rs.map Record.path =
        (window.of parent w.fleet.ambient.engine.contents.entries).map Prod.fst ∧
      Call.answer (Store.documents .background parent window (w.fleet.scene i)) =
        (rs.mapM Record.reread).map some := by
  have hes : ∀ e ∈ window.of parent w.fleet.ambient.engine.contents.entries,
      w.fleet.ambient.engine.value? e.1 = some e.2 := by
    intro e he
    have hmem := List.mem_of_mem_drop (Contents.mem_of_mem_cut he)
    exact Contents.mem_entries.1 (List.mem_filter.1 hmem).1
  obtain ⟨rs, hcurrent, hpaths, hreads⟩ := h.exists_reread hes
  refine ⟨rs, hcurrent, hpaths, ?_⟩
  rw [Store.answer_documents (s := w.fleet.scene i) hopen h.steady.isHealthy h.steady.hasTextKeys,
    hdata, h.tracked.cipher i session hopen]
  exact congrArg (Except.map some) hreads

/-- `set` fails as the current record of its path does on reading back, and where that reads, it
accepts its writing. -/
theorem answer_set (ha : a.Lawful) {raw : String} (hroot : Path.isRoot raw = false)
    (fields : Fields) (mode : WriteMode) :
    match (w.current? (Path.normalize raw)).map Record.reread with
    | some (.error e) =>
      Call.answer (Store.set .background raw fields mode (w.fleet.scene i)) = .error e
    | _ => Store.Accepts (Path.normalize raw)
      (Call.answer (Store.set .background raw fields mode (w.fleet.scene i))) := by
  have hsame : session.cipher = a := h.tracked.cipher i session hopen
  have hset := Store.answer_set (s := w.fleet.scene i) hopen h.steady.isHealthy hroot fields mode
    (hsame ▸ ha)
  rw [hsame] at hset
  rcases h.cases_current? (Path.normalize raw) with
    ⟨hvalue, hcurrent⟩ | ⟨r, c, hvalue, hcurrent, hread⟩
  · rw [show (w.fleet.scene i).ambient.engine.value? _ = none from hvalue] at hset
    rw [hcurrent]
    exact hset
  · rw [show (w.fleet.scene i).ambient.engine.value? _ = some c from hvalue, Option.map_some,
      hread] at hset
    rw [hcurrent]
    exact hset

end Answers

/-- A retained watch serves what was written through every open store. -/
theorem serves (ha : a.Lawful) {i : Nat} {session : Session}
    (hopen : (w.fleet.stores i).session = some session) : w.Serves i where
  get := h.answer_get hopen
  last := h.answer_last hopen
  documents := fun parent _ => h.answer_documents hopen parent
  set := fun _ fields mode hroot => h.answer_set hopen ha hroot fields mode

end IsRetained

/-! ## Runs of commands -/

/-- A new watch over a healthy engine is retained. -/
theorem IsNew.isRetained (h : w.IsNew) (hhealthy : w.fleet.ambient.engine.IsHealthy) :
    w.IsRetained a := by
  refine ⟨h.isTracked, ⟨hhealthy, Contents.hasTextKeys_of_size h.size⟩, ?_⟩
  intro path c hc
  exact absurd ((Contents.value?_of_size h.size path).symm.trans hc) (by simp)

/-- Every run of commands with legible fields leads to a retained watch. -/
theorem isRetained_perform (k : Key) (hw : w.IsNew) (hhealthy : w.fleet.ambient.engine.IsHealthy)
    {steps : List (Nat × Command)} (hsteps : ∀ q ∈ steps, q.2.IsLegible) :
    (w.perform k.cipher steps).IsRetained k.cipher :=
  perform_induction (hw.isRetained hhealthy) fun _ i _ hmem h =>
    h.command k.lawful_cipher i (hsteps _ hmem)

/-- A command makes a record that is no deeper than the fields that it is given and those that
were written before. -/
theorem IsTracked.isShallow_of_makes (h : w.IsTracked a)
    (hlog : ∀ x ∈ w.log, x.record.fields.IsShallow) {c : Command} (hc : c.Gives Fields.IsShallow)
    {time : Time.Instant} {r : Record} (hmakes : c.Makes a w.fleet.ambient.engine time r) :
    r.fields.IsShallow := by
  cases hmakes with
  | create _ => exact hc
  | setFirst _ _ => exact hc
  | @setNext ctx raw fields mode r _ hread =>
    obtain ⟨x, hx, rfl⟩ := h.exists_of_record? hread
    cases mode with
    | replace => exact hc
    | merge => exact Json.Value.depth_merge_le (hlog x hx) hc
  | firstBatch _ hnext _ => exact (Counter.readsBack_fieldsFor hnext).2
  | nextBatch _ hnext _ => exact (Counter.readsBack_fieldsFor hnext).2

/-- Where all fields given are shallow, so are those of all records written. -/
theorem isShallow_perform (k : Key) (hw : w.IsNew) {steps : List (Nat × Command)}
    (hsteps : ∀ q ∈ steps, q.2.IsLegible)
    (hshallow : ∀ q ∈ steps, q.2.Gives Fields.IsShallow) :
    ∀ x ∈ (w.perform k.cipher steps).log, x.record.fields.IsShallow := by
  refine (perform_induction (P := fun v => v.IsTracked k.cipher ∧
    ∀ x ∈ v.log, x.record.fields.IsShallow) ⟨hw.isTracked, by simp [hw.log]⟩ ?_).2
  rintro v i c hmem ⟨htracked, hlog⟩
  refine ⟨htracked.command k.lawful_cipher i (hsteps _ hmem), ?_⟩
  apply forall_log_command (P := fun r => r.fields.IsShallow) htracked.cipher hlog
  intro time r _ hmakes
  exact htracked.isShallow_of_makes hlog (hshallow _ hmem) hmakes

/-- After every run of commands from an empty engine without faults, every open store finds at
every stored path the record that was last written there.  It reads the record exactly if its
fields are not nested too deep, as they are if no command was given fields that are. -/
theorem serves_of_run (k : Key) {w : Watch} (hw : w.IsNew)
    (hhealthy : w.fleet.ambient.engine.IsHealthy) {steps : List (Nat × Command)}
    (hsteps : ∀ q ∈ steps, q.2.IsLegible) :
    (∀ i session, ((w.perform k.cipher steps).fleet.stores i).session = some session →
      (w.perform k.cipher steps).Serves i) ∧
    (∀ path, ((w.perform k.cipher steps).fleet.ambient.engine.value? path).isSome →
      Path.IsLocation path ∧ ∃ r, (w.perform k.cipher steps).current? path = some r ∧
        r.path = path ∧
        ((r.fields.IsShallow ∧ r.reread =
            .ok { path
                  fields := r.fields
                  createdAt := some r.createdAt
                  updatedAt := some r.updatedAt }) ∨
          (¬ r.fields.IsShallow ∧ ∃ reason, r.reread = .error (.codec path reason)))) ∧
    ((∀ q ∈ steps, q.2.Gives Fields.IsShallow) →
      ∀ path r, (w.perform k.cipher steps).current? path = some r → r.fields.IsShallow) := by
  have hrun := isRetained_perform k hw hhealthy hsteps
  refine ⟨fun i session hopen => hrun.serves k.lawful_cipher hopen, ?_, ?_⟩
  · intro path hstored
    rcases hrun.cases_current? path with ⟨hnone, -⟩ | ⟨r, c, -, hcurrent, -⟩
    · simp [hnone] at hstored
    · obtain ⟨rfl, x, hx, rfl⟩ := mem_of_current? hcurrent
      exact ⟨hrun.tracked.placed x hx, x.record, hcurrent, rfl,
        Record.reread_cases (hrun.tracked.log x hx)⟩
  · intro hshallow path r hcurrent
    obtain ⟨-, x, hx, rfl⟩ := mem_of_current? hcurrent
    exact isShallow_perform k hw hsteps hshallow x hx

/-- A document is created with a field of 125 levels, and is got. -/
theorem serves_of_created :
    let a := (Key.uniform 7).cipher
    let w := fresh .standard
    let steps : List (Nat × Command) := [(0, .openStore .background),
      (0, .create .background "a" [("nest", .nested 125)])]
    w.IsNew ∧ w.fleet.ambient.engine.IsHealthy ∧ (∀ q ∈ steps, q.2.IsLegible) ∧
      (∀ q ∈ steps, q.2.Gives Fields.IsShallow) ∧
      ∃ d, d.path = "/a" ∧ Call.answer (Store.get .background "/a"
        ((w.perform a steps).fleet.scene 0)) = .ok (some d) := by
  intro a w steps
  have hw : w.IsNew := isNew_fresh (Clock.isProper_ticking _)
  have hhealthy : w.fleet.ambient.engine.IsHealthy := (isSteady_fresh _).isHealthy
  have hsteps : ∀ q ∈ steps, q.2.IsLegible := by
    simp [steps, Command.IsLegible, Command.Gives, Fields.isLegible_nested]
  have hlimit : Fields.IsShallow [("nest", .nested 125)] := by decide +kernel
  have hshallow : ∀ q ∈ steps, q.2.Gives Fields.IsShallow := by
    simp [steps, Command.Gives, hlimit]
  have hcreated : ((w.perform a steps).fleet.stores 0).session.isSome ∧
      ((w.perform a steps).fleet.ambient.engine.value? "/a").isSome := by
    unfold w steps a
    decide +kernel
  obtain ⟨hopen, hstored⟩ := hcreated
  obtain ⟨hserves, hread, hall⟩ := serves_of_run (Key.uniform 7) hw hhealthy hsteps
  obtain ⟨session, hsession⟩ := Option.isSome_iff_exists.1 hopen
  obtain ⟨hplace, r, hcurrent, hpath, ⟨-, hok⟩ | ⟨hdeep, -⟩⟩ := hread "/a" hstored
  · have hget := (hserves 0 session hsession).get "/a"
    rw [hplace.normalize_eq, hcurrent] at hget
    refine ⟨hw, hhealthy, hsteps, hshallow,
      ⟨"/a", r.fields, some r.createdAt, some r.updatedAt⟩, rfl, hget.trans ?_⟩
    dsimp only
    rw [hok]
    rfl
  · exact absurd (hall hshallow "/a" r hcurrent) hdeep

end Watch

/-! ## Writing too deep -/

namespace Watch

variable {a : Aead} {w : Watch}

/-- A document whose fields are nested too deep is neither got nor set anew. -/
theorem IsRetained.fails_of_deep (h : w.IsRetained a) (ha : a.Lawful) {i : Nat}
    {session : Session} (hopen : (w.fleet.stores i).session = some session) {raw : String}
    {r : Record} (hcurrent : w.current? (Path.normalize raw) = some r)
    (hdeep : ¬ r.fields.IsShallow) (hroot : Path.isRoot raw = false) :
    ∃ reason,
      Call.answer (Store.get .background raw (w.fleet.scene i)) =
        .error (.codec (Path.normalize raw) reason) ∧
      ∀ fields mode, Call.answer (Store.set .background raw fields mode (w.fleet.scene i)) =
        .error (.codec (Path.normalize raw) reason) := by
  have hserves := h.serves ha hopen
  have hget := hserves.get raw
  have hset := fun fields mode => hserves.set raw fields mode hroot
  obtain ⟨hpath, x, hx, rfl⟩ := mem_of_current? hcurrent
  rcases Record.reread_cases (h.tracked.log x hx) with ⟨hshallow, -⟩ | ⟨-, reason, hreread⟩
  · exact absurd hshallow hdeep
  · rw [hpath] at hreread
    simp only [hcurrent, hreread, Option.map_some] at hget hset
    exact ⟨reason, hget, hset⟩

/-- A field with 126 levels is written, and its document is lost. -/
theorem fails_of_deep_field :
    let a := (Key.uniform 7).cipher
    let fields : Fields := [("nest", .nested 126)]
    let opened := (fresh .standard).perform a [(0, .openStore .background)]
    let w := opened.command a 0 (.create .background "/a" fields)
    fields.IsLegible ∧
      (Call.answer (Store.create .background "/a" fields (opened.fleet.scene 0))).isOk ∧
      ∃ reason,
        Call.answer (Store.get .background "/a" (w.fleet.scene 0)) =
          .error (.codec "/a" reason) ∧
        ∀ fields mode, Call.answer (Store.set .background "/a" fields mode (w.fleet.scene 0)) =
          .error (.codec "/a" reason) := by
  intro a fields opened w
  have hfields : fields.IsLegible := Fields.isLegible_nested 126
  have hsteps : ∀ q ∈ [((0 : Nat), Command.openStore .background),
      (0, .create .background "/a" fields)], q.2.IsLegible := by
    simp [Command.IsLegible, Command.Gives, hfields]
  have hrun : w.IsRetained a := isRetained_perform (Key.uniform 7)
    (isNew_fresh (Clock.isProper_ticking _)) (isSteady_fresh .standard).isHealthy hsteps
  have hcreated : (Call.answer
        (Store.create .background "/a" fields (opened.fleet.scene 0))).isOk ∧
      (w.fleet.stores 0).session.isSome ∧
      (w.current? "/a").map (fun r => decide r.fields.IsShallow) = some false := by
    unfold w opened fields a
    decide +kernel
  obtain ⟨haccepted, hopen, hlast⟩ := hcreated
  obtain ⟨session, hsession⟩ := Option.isSome_iff_exists.1 hopen
  obtain ⟨r, hcurrent, hdeep⟩ := Option.map_eq_some_iff.1 hlast
  have hroot : Path.isRoot "/a" = false := by decide
  have hdeep : ¬ r.fields.IsShallow := by simpa using hdeep
  exact ⟨hfields, haccepted,
    hrun.fails_of_deep (Key.uniform 7).lawful_cipher hsession hcurrent hdeep hroot⟩

end Watch

end Strongbox
