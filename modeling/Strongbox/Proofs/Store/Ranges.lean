import Strongbox.Proofs.Cipher.Galois
import Strongbox.Proofs.OrderedMap
import Strongbox.Proofs.Store.Window

/-!
# Counting a range and reading its end

A store looks at the documents whose paths begin with a stem in three ways: it lists them, it
counts them, and it reads the last one.  The listing and the count walk upwards a page at a time
and test every key; the last entry is sought downwards from the end of the range.  They agree
over every healthy engine whose keys are text, whatever the stored values are and however large
a page is.  The main statement is `Store.last_and_count_of_documents`.
-/

set_option autoImplicit false

namespace Strongbox

/-- Every item of a list is done, and in order. -/
theorem forall₂_of_mapM {ε α β : Type} {f : α → Except ε β} {xs : List α} {ys : List β}
    (h : xs.mapM f = .ok ys) : List.Forall₂ (fun x y => f x = .ok y) xs ys := by
  induction xs generalizing ys with
  | nil =>
    injection h with h
    rw [← h]
    exact .nil
  | cons x xs ih =>
    rw [List.mapM_cons] at h
    cases hx : f x with
    | error e =>
      rw [hx] at h
      exact absurd h (by simp [bind, Except.bind])
    | ok y =>
      cases hrest : xs.mapM f with
      | error e =>
        rw [hx, hrest] at h
        exact absurd h (by simp [bind, Except.bind])
      | ok rest =>
        rw [hx, hrest] at h
        injection h with h
        rw [← h]
        exact .cons hx (ih hrest)

/-- A result that maps to a success does so from one. -/
theorem eq_ok_of_map_some {ε α : Type} {x : Except ε α} {a : α} (h : x.map some = .ok (some a)) :
    x = .ok a := by
  cases x with
  | error error => exact absurd h (by simp [Except.map])
  | ok b => simpa [Except.map] using h

/-- The last item that is done is the last one. -/
theorem getLast?_of_mapM {ε α β : Type} {f : α → Except ε β} {xs : List α} {ys : List β}
    (h : xs.mapM f = .ok ys) : xs.getLast?.map f = ys.getLast?.map .ok := by
  have hall := List.rel_reverse (forall₂_of_mapM h)
  rw [← List.head?_reverse, ← List.head?_reverse]
  generalize xs.reverse = us, ys.reverse = vs at hall
  cases hall with
  | nil => rfl
  | cons hfirst _ => exact congrArg some hfirst

/-- The document of the last entry of a range.  An entry that is not decrypted is reported under
the stem of the range, unlike one that is listed. -/
def Entry.readLast (a : Aead) (stem : String) (e : Entry) : Except StoreError Document :=
  match Stream.decrypt a e.2 with
  | .ok plaintext => (Record.ofBytes e.1 plaintext).map fun r =>
      { path := e.1
        fields := r.fields
        createdAt := some r.createdAt
        updatedAt := some r.updatedAt }
  | .error cause => .error (.ofBarrier stem (.crypto cause))

/-- The last entry of a range reads as the record that its value holds. -/
theorem Entry.readLast_eq (a : Aead) (stem : String) (e : Entry) :
    e.readLast a stem =
      match Stream.decrypt a e.2 with
      | .ok plaintext => (Record.ofBytes e.1 plaintext).map Record.toDocument
      | .error cause => .error (.ofBarrier stem (.crypto cause)) := by
  unfold readLast
  cases Stream.decrypt a e.2 with
  | error cause => rfl
  | ok plaintext => exact (Record.map_toDocument_ofBytes e.1 plaintext).symm

/-- The last entry of a range is read from the record that its value decrypts to. -/
theorem Entry.readLast_of_decrypt {a : Aead} {stem : String} {e : Entry} {plaintext : Bytes}
    {r : Record} (h : Stream.decrypt a e.2 = .ok plaintext)
    (hbytes : Record.ofBytes e.1 plaintext = .ok r) : e.readLast a stem = .ok r.toDocument := by
  rw [readLast_eq, h]
  dsimp only
  rw [hbytes]
  rfl

/-- An entry that reads as a document reads so at the end of a range. -/
theorem Entry.readLast_of_read {a : Aead} {e : Entry} {d : Document} (h : e.read a = .ok d)
    (stem : String) : e.readLast a stem = .ok d := by
  unfold read at h
  unfold readLast
  cases hdecrypt : Stream.decrypt a e.2 with
  | ok plaintext => rwa [hdecrypt] at h
  | error cause =>
    rw [hdecrypt] at h
    exact absurd h (by simp)

/-- A healthy engine's last entry is decrypted, or the failure to do so is passed on. -/
theorem Barrier.last_of_isHealthy {a : Aead} {s : Ambient} (hs : s.engine.IsHealthy)
    (htext : s.engine.contents.HasTextKeys) (stem : String) :
    last a stem s =
      match (s.engine.contents.entries.filter fun e => Range.begins stem e.1).getLast? with
      | none => .ok none s
      | some e =>
        match Stream.decrypt a e.2 with
        | .ok plaintext => .ok (some (e.1, plaintext)) s
        | .error cause => .error (.crypto cause) s := by
  unfold last
  rw [Call.bind_ok (onEngine_ok (hs.last htext stem))]
  cases (s.engine.contents.entries.filter fun e => Range.begins stem e.1).getLast? with
  | none => rfl
  | some e =>
    dsimp only
    cases hdecrypt : Stream.decrypt a e.2 with
    | ok plaintext =>
      rw [Call.bind_ok (decrypt_ok hdecrypt _)]
      rfl
    | error cause => rw [Call.bind_error (decrypt_error hdecrypt _)]

/-- Listings below the root and look-ups of the last entry run over the same range. -/
theorem Path.listingRange_root (stem : String) : listingRange "/" stem = anchored stem := by
  unfold listingRange
  rw [if_pos (by decide)]

/-- All entries of the range of a listing. -/
theorem Window.of_stem (stem parent : String) (pathsOnly : Bool) (es : List Entry) :
    Window.of { stem, pathsOnly } parent es =
      es.filter fun e => Range.begins (Path.listingRange parent stem) e.1 := by
  simp [Window.of, Range.cut]

namespace Store

open StoreCall

/-- The number of documents is the length of the list of their paths. -/
theorem count_eq_documents (ctx : Context) (parent stem : String) :
    count ctx parent stem =
      documents ctx parent { stem, pathsOnly := true } >>= fun ds =>
        pure (ds.map List.length) := by
  unfold count documents
  simp only [bind_assoc, pure_bind]

section Healthy

variable {s : Scene} {session : Session} (hopen : s.store.session = some session)
  (hs : s.ambient.engine.IsHealthy) (htext : s.ambient.engine.contents.HasTextKeys)

include hopen hs htext

/-- What is counted are the entries of the range. -/
theorem answer_count (parent stem : String) :
    Call.answer (count .background parent stem s) =
      .ok (some (Window.of { stem } parent s.ambient.engine.contents.entries).length) := by
  have hpaths := answer_documents hopen hs htext parent { stem, pathsOnly := true }
  rw [if_pos rfl] at hpaths
  rw [count_eq_documents, Call.bind_ok (Call.eq_ok_of_answer hpaths)]
  simp [Call.answer, Pure.pure, EStateM.pure, Window.of_stem]

/-- The last document of a range is read from the last entry of the range. -/
theorem answer_last_of_isHealthy (stem : String) :
    Call.answer (last .background stem s) =
      match (Window.of { stem } "/" s.ambient.engine.contents.entries).getLast? with
      | none => .ok none
      | some e => (e.readLast session.cipher (Path.anchored stem)).map some := by
  obtain ⟨t, ht, hboundary⟩ := boundary_background s
  have hsession : openSession t = .ok session t :=
    openSession_of_isOpen (by rw [ht.store, hopen])
  have hlast := Barrier.last_of_isHealthy (a := session.cipher) (s := t.ambient)
    (ht.engine ▸ hs) (ht.engine ▸ htext) (Path.anchored stem)
  rw [ht.engine] at hlast
  unfold last
  rw [Call.bind_ok hboundary, Call.bind_ok hsession, Window.of_stem, Path.listingRange_root]
  cases hend : (s.ambient.engine.contents.entries.filter fun e =>
      Range.begins (Path.anchored stem) e.1).getLast? with
  | none =>
    rw [hend] at hlast
    rw [Call.bind_ok (onBarrier_ok hlast)]
    rfl
  | some e =>
    rw [hend] at hlast
    dsimp only at hlast ⊢
    rw [Entry.readLast_eq]
    cases hdecrypt : Stream.decrypt session.cipher e.2 with
    | error cause =>
      rw [hdecrypt] at hlast
      rw [Call.bind_error (onBarrier_error hlast)]
      rfl
    | ok plaintext =>
      rw [hdecrypt] at hlast
      rw [Call.bind_ok (onBarrier_ok hlast)]
      dsimp only
      cases hbytes : Record.ofBytes e.1 plaintext with
      | error error =>
        obtain ⟨u, -, hdecode⟩ := decode_error hbytes t
        rw [Call.bind_error hdecode]
        rfl
      | ok r =>
        rw [Call.bind_ok (decode_ok hbytes _)]
        rfl

/-- As many documents are counted as are listed, with their data or without. -/
theorem answer_count_of_documents {parent stem : String} {pathsOnly : Bool} {ds : List Document}
    (h : Call.answer (documents .background parent { stem, pathsOnly } s) = .ok (some ds)) :
    Call.answer (count .background parent stem s) = .ok (some ds.length) := by
  rw [answer_documents hopen hs htext, Window.of_stem] at h
  rw [answer_count hopen hs htext, Window.of_stem]
  congr 1
  split at h
  · injection h with h
    rw [← Option.some.inj h, List.length_map]
  · exact congrArg some (forall₂_of_mapM (eq_ok_of_map_some h)).length_eq

/-- The last document is the final one of a listing that reads them all. -/
theorem answer_last_of_documents {stem : String} {ds : List Document}
    (h : Call.answer (documents .background "/" { stem } s) = .ok (some ds)) :
    Call.answer (last .background stem s) = .ok ds.getLast? := by
  rw [answer_documents hopen hs htext, if_neg Bool.false_ne_true] at h
  have hread := getLast?_of_mapM (eq_ok_of_map_some h)
  rw [answer_last_of_isHealthy hopen hs htext]
  cases hend : (Window.of { stem } "/" s.ambient.engine.contents.entries).getLast? with
  | none =>
    rw [hend] at hread
    rw [Option.map_eq_none_iff.1 hread.symm]
  | some e =>
    rw [hend] at hread
    obtain ⟨d, hd, hok⟩ := Option.map_eq_some_iff.1 hread.symm
    rw [hd]
    dsimp only
    rw [Entry.readLast_of_read hok.symm]
    rfl

end Healthy

/-- The last element of an ascending list is its greatest. -/
theorem le_of_getLast? {es : List Entry} (hes : es.Pairwise fun d e => d.1 < e.1) {e : Entry}
    (hlast : es.getLast? = some e) : ∀ d ∈ es, d.1 ≤ e.1 := by
  obtain ⟨front, rfl⟩ := List.getLast?_eq_some_iff.1 hlast
  intro d hd
  rcases List.mem_append.1 hd with hd | hd
  · exact Std.le_of_lt ((List.pairwise_append.1 hes).2.2 d hd e List.mem_cons_self)
  · obtain rfl := List.mem_singleton.1 hd
    exact String.le_refl d.1

/-- Over a healthy engine whose keys are text, let the entries of the range of a stem be listed
below the root.  Nothing is last exactly if none are counted; else the last document is read at
the greatest key listed, and it is the final one that a listing of them all hands out.  Below
every parent as many are counted as a listing hands out. -/
theorem last_and_count_of_documents {s : Scene} {session : Session} {es : List Entry}
    (hopen : s.store.session = some session) (hs : s.ambient.engine.IsHealthy)
    (htext : s.ambient.engine.contents.HasTextKeys)
    (hes : s.ambient.engine.contents.IsListedBy es) (stem : String) :
    let listed := Window.of { stem } "/" es
    (Call.answer (documents .background "/" { stem, pathsOnly := true } s) =
        .ok (some (listed.map fun e =>
          { path := Path.normalize e.1, fields := [], createdAt := none, updatedAt := none })) ∧
      Call.answer (count .background "/" stem s) = .ok (some listed.length)) ∧
    (Call.answer (last .background stem s) = .ok none ↔
      Call.answer (count .background "/" stem s) = .ok (some 0)) ∧
    (listed ≠ [] → ∃ e ∈ listed, (∀ d ∈ listed, d.1 ≤ e.1) ∧
      Call.answer (last .background stem s) =
        (e.readLast session.cipher (Path.anchored stem)).map some) ∧
    (∀ ds, Call.answer (documents .background "/" { stem } s) = .ok (some ds) →
      Call.answer (last .background stem s) = .ok ds.getLast?) ∧
    ∀ parent pathsOnly ds,
      Call.answer (documents .background parent { stem, pathsOnly } s) = .ok (some ds) →
        Call.answer (count .background parent stem s) = .ok (some ds.length) := by
  intro listed
  have hlisted : Window.of { stem } "/" s.ambient.engine.contents.entries = listed := by
    rw [← hes.eq_entries]
  have hcount := answer_count hopen hs htext "/" stem
  have hlast := answer_last_of_isHealthy hopen hs htext stem
  have hpaths := answer_documents hopen hs htext "/" { stem, pathsOnly := true }
  rw [hlisted] at hcount hlast
  rw [← hes.eq_entries] at hpaths
  refine ⟨⟨hpaths, hcount⟩, ?_, ?_, fun ds => answer_last_of_documents hopen hs htext,
    fun parent pathsOnly ds => answer_count_of_documents hopen hs htext⟩
  · rw [hcount, hlast, Except.ok.injEq, Option.some.injEq, List.length_eq_zero_iff,
      ← List.getLast?_eq_none_iff]
    cases listed.getLast? with
    | none => exact iff_of_true rfl rfl
    | some e =>
      refine iff_of_false ?_ (by simp)
      dsimp only
      cases e.readLast session.cipher (Path.anchored stem) with
      | ok d => simp [Except.map]
      | error error => simp [Except.map]
  · intro hne
    have hascending : listed.Pairwise fun d e => d.1 < e.1 := by
      unfold listed
      rw [Window.of_stem]
      exact (hes.ascending.imp Utf8.encode_lt_encode.1).filter _
    cases hend : listed.getLast? with
    | none => exact absurd (List.getLast?_eq_none_iff.1 hend) hne
    | some e =>
      refine ⟨e, List.mem_of_getLast? hend, le_of_getLast? hascending hend, ?_⟩
      rw [hlast, hend]

/-- The last of the keys that begin with "/a" ends in the last character of all, behind which no
key of the range can stand.  It has a record, while the key in front of it has none. -/
theorem last_of_final_character :
    let session : Session := ⟨1, (Key.uniform 7).cipher, .empty⟩
    let final := String.ofList ['/', 'a', Char.ofNat 1114111]
    let r : Record := ⟨final, [], .epoch, .epoch⟩
    ∃ (c : Bytes) (hascending : Bindings.Ascending [("/a", []), (final, c), ("/b", [])]),
      let s : Scene :=
        ⟨{ config := { Config.standard with pageSize := 0 }, session := some session },
          { engine := { contents := .volatile ⟨_, hascending⟩ }, clock := .standard,
            entropy := ⟨fun _ => 0, 0⟩ }⟩
      s.store.session = some session ∧ s.ambient.engine.IsHealthy ∧
        s.ambient.engine.contents.HasTextKeys ∧
        s.ambient.engine.contents.IsListedBy [("/a", []), (final, c), ("/b", [])] ∧
        Call.answer (count .background "/" "a" s) = .ok (some 2) ∧
        Call.answer (last .background "a" s) = .ok (some r.toDocument) ∧
        Call.answer (last .background "c" s) = .ok none := by
  intro session final r
  have hfits : Stream.Fits r.toBytes := by decide +kernel
  have hstem : (List.replicate 7 0 : Bytes).length = Stream.stemLength := rfl
  have hencrypt := @Stream.encryptWith_eq session.cipher (List.replicate 7 0) _ hfits
  have hdecrypt := Stream.decrypt_encryptWith (Key.uniform 7).lawful_cipher hstem hencrypt
  have hbytes : Record.ofBytes final r.toBytes = .ok r := by
    have hfields : r.fields.ReadsBack := ⟨⟨.nil, trivial⟩, by decide⟩
    have hreads : r.ReadsBack := Record.readsBack_of_isProper hfields
      Time.Instant.isProper_epoch Time.Instant.isProper_epoch
    exact hreads.ofBytes
  generalize Stream.version :: _ = c at hencrypt hdecrypt
  have hascending : Bindings.Ascending [("/a", []), (final, c), ("/b", [])] := by
    simp only [Bindings.Ascending, List.pairwise_cons, List.forall_mem_cons]
    decide
  refine ⟨c, hascending, ?_⟩
  intro s
  have hs : s.ambient.engine.IsHealthy := ⟨.inl rfl, rfl, trivial⟩
  have hes : s.ambient.engine.contents.IsListedBy [("/a", []), (final, c), ("/b", [])] :=
    Contents.isListedBy_entries _
  obtain ⟨⟨-, hcount⟩, -, hlast, -⟩ := last_and_count_of_documents rfl hs trivial hes "a"
  obtain ⟨⟨-, hzero⟩, hnone, -⟩ := last_and_count_of_documents rfl hs trivial hes "c"
  have hbegins : ["/a", final, "/b"].map (Range.begins (Path.listingRange "/" "a")) =
      [true, true, false] := by decide
  have hothers : ["/a", final, "/b"].map (Range.begins (Path.listingRange "/" "c")) =
      [false, false, false] := by decide
  have hrange : Window.of { stem := "a" } "/" [("/a", []), (final, c), ("/b", [])] =
      [("/a", []), (final, c)] := by
    simp_all [Window.of_stem]
  have hempty : Window.of { stem := "c" } "/" [("/a", []), (final, c), ("/b", [])] = [] := by
    simp_all [Window.of_stem]
  rw [hrange] at hcount hlast
  rw [hempty] at hzero
  refine ⟨rfl, hs, trivial, hes, hcount, ?_, hnone.2 hzero⟩
  obtain ⟨e, he, hgreatest, hread⟩ := hlast (by simp)
  have hfinal : e = (final, c) := by
    rcases List.mem_pair.1 he with rfl | he
    · exact absurd (show final ≤ "/a" from hgreatest (final, c) (by simp)) (by decide)
    · exact he
  rw [hread, hfinal, Entry.readLast_of_decrypt hdecrypt hbytes]
  rfl

end Store

end Strongbox
