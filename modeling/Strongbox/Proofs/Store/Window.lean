import Strongbox.Cipher.Key
import Strongbox.Proofs.Record
import Strongbox.Proofs.Store.Paging

/-!
# Listings show their window

The documents below a parent are those of the stored keys of its range, in ascending order,
without the first ones up to the index and cut to the limit.  The size of the pages plays no
part in it, and neither do records outside the window.  The main statement is
`Store.documents_eq_window`.
-/

set_option autoImplicit false

namespace Strongbox

open Call (Respects)

/-- The document of an entry, or the failure to read it.  The document has the key as its path,
and the fields and both times of the record that the value holds. -/
def Entry.read (a : Aead) (e : Entry) : Except StoreError Document :=
  match Stream.decrypt a e.2 with
  | .ok plaintext => (Record.ofBytes e.1 plaintext).map fun r =>
      { path := e.1
        fields := r.fields
        createdAt := some r.createdAt
        updatedAt := some r.updatedAt }
  | .error cause => .error (.ofBarrier e.1 (.crypto cause))

/-- An entry reads as the record that its value holds. -/
theorem Entry.read_eq (a : Aead) (e : Entry) :
    e.read a =
      match Stream.decrypt a e.2 with
      | .ok plaintext => (Record.ofBytes e.1 plaintext).map Record.toDocument
      | .error cause => .error (.ofBarrier e.1 (.crypto cause)) := by
  unfold read
  cases Stream.decrypt a e.2 with
  | error cause => rfl
  | ok plaintext => exact (Record.map_toDocument_ofBytes e.1 plaintext).symm

/-- The same store over the same engine. -/
structure Scene.Stays (s t : Scene) : Prop where
  store : t.store = s.store
  engine : t.ambient.engine = s.ambient.engine

/-- A scene stays itself. -/
theorem Scene.Stays.refl (s : Scene) : s.Stays s := ⟨rfl, rfl⟩

namespace StoreCall

/-- A boundary that is not interrupted is passed. -/
theorem boundary_of_verdict {ctx : Context} {s : Scene}
    (h : ctx.verdict s.ambient.boundaries = none) :
    ∃ t, s.Stays t ∧ boundary ctx s = .ok () t := by
  refine ⟨{ s with ambient := { s.ambient with boundaries := s.ambient.boundaries + 1 } },
    ⟨rfl, rfl⟩, ?_⟩
  unfold boundary
  rw [h]

/-- An interrupted boundary fails with its interruption. -/
theorem boundary_of_interruption {ctx : Context} {s : Scene} {i : Interruption}
    (h : ctx.verdict s.ambient.boundaries = some i) :
    ∃ t, boundary ctx s = .error (.ofInterruption i) t := by
  unfold boundary
  rw [h]
  exact ⟨_, rfl⟩

/-- In the background every boundary is passed. -/
theorem boundary_background (s : Scene) : ∃ t, s.Stays t ∧ boundary .background s = .ok () t :=
  boundary_of_verdict rfl

/-- Bytes that are no sound record fail to be decoded. -/
theorem decode_error {path : String} {plaintext : Bytes} {e : StoreError}
    (h : Record.ofBytes path plaintext = .error e) (s : Scene) :
    ∃ t, s.Stays t ∧ decode path plaintext s = .error e t := by
  unfold decode
  rw [h]
  cases e with
  | pathMismatch expected actual =>
    exact ⟨s.tell (.misplaced actual expected), ⟨rfl, rfl⟩, rfl⟩
  | _ => exact ⟨s, Scene.Stays.refl s, rfl⟩

end StoreCall

/-- The record at a path makes the document that the entry there reads. -/
theorem Engine.record?_map (a : Aead) (path : String) (e : Engine) :
    (e.record? a path).map (Option.map Record.toDocument) =
      match e.value? path with
      | none => .ok none
      | some c => (Entry.read a (path, c)).map some := by
  unfold record? plaintext?
  cases e.value? path with
  | none => rfl
  | some c =>
    dsimp only
    rw [Entry.read_eq]
    cases Stream.decrypt a c with
    | error cause => rfl
    | ok plaintext =>
      dsimp only [Except.map]
      cases Record.ofBytes path plaintext with
      | error error => rfl
      | ok r => rfl

/-- On a healthy engine a record is read as the contents hold it, or with their failure. -/
theorem StoreCall.answer_readRecord {a : Aead} {path : String} {s : Scene}
    (hs : s.ambient.engine.IsHealthy) :
    Call.answer (readRecord a path s) = s.ambient.engine.record? a path := by
  have hget := Barrier.get_of_answer (a := a) (hs.get path)
  unfold readRecord Engine.record?
  cases hplain : s.ambient.engine.plaintext? a path with
  | error cause =>
    rw [hplain] at hget
    have hcall : ∃ t, onRecord path (Barrier.get a path) s =
        .error (.ofBarrier path (.crypto cause)) t := by
      unfold onRecord
      rw [onBarrier_error hget]
      exact ⟨_, rfl⟩
    obtain ⟨t, ht⟩ := hcall
    rw [Call.bind_error ht]
    rfl
  | ok x =>
    rw [hplain] at hget
    rw [Call.bind_ok (onRecord_ok hget)]
    cases x with
    | none => rfl
    | some plaintext =>
      dsimp only
      cases hbytes : Record.ofBytes path plaintext with
      | ok r =>
        rw [Call.bind_ok (decode_ok hbytes _)]
        rfl
      | error e =>
        obtain ⟨t, -, ht⟩ := decode_error hbytes s
        rw [Call.bind_error ht]
        rfl

namespace Listing

/-- The document that a listing hands out for an entry, or the failure to read it.  A listing of
paths hands out the normalized key, without fields and times. -/
def read (l : Listing) (a : Aead) (e : Entry) : Except StoreError Document :=
  if l.pathsOnly then
    .ok { path := Path.normalize e.1, fields := [], createdAt := none, updatedAt := none }
  else e.read a

/-- The entries that a listing has still to hand out. -/
def window (l : Listing) (c : Contents) : List Entry :=
  let ahead := (l.pending c).drop l.skip
  if l.limit = 0 then ahead else ahead.take (l.limit - l.yielded)

/-- A complete listing has nothing more to hand out. -/
theorem window_of_isComplete {l : Listing} {c : Contents} (h : l.isComplete = true) :
    l.window c = [] := by
  simp only [isComplete, Bool.and_eq_true, bne_iff_ne, decide_eq_true_eq] at h
  obtain ⟨hlimit, hle⟩ := h
  unfold window
  simp [hlimit, Nat.sub_eq_zero_of_le hle]

/-- The first entry that is not passed over stands first in the window. -/
theorem window_eq_cons {l : Listing} {c : Contents} {e : Entry} {rest : List Entry}
    (h : (l.pending c).drop l.skip = e :: rest) (hmore : l.isComplete = false) :
    l.window c =
      e :: if l.limit = 0 then rest else rest.take (l.limit - (l.yielded + 1)) := by
  unfold window
  rw [h]
  by_cases hlimit : l.limit = 0
  · simp [hlimit]
  · have hroom : l.limit - l.yielded = l.limit - (l.yielded + 1) + 1 := by
      have hlt : l.yielded < l.limit := by simpa [isComplete, hlimit] using hmore
      omega
    simp [hlimit, hroom]

namespace Follows

/-- Listings of the same settings read entries alike. -/
theorem read {l m : Listing} (h : Follows l m) : m.read = l.read := by
  unfold Listing.read
  rw [h.pathsOnly]

end Follows

/-- Refilling keeps the listing's range and settings. -/
theorem follows_refilled (l : Listing) (c : Contents) : Follows l (l.refilled c) := by
  rcases refilled_cases l c with ⟨hsame, -⟩ | ⟨hpage, -, -⟩
  · rw [hsame]
    exact Follows.refl l
  · rw [hpage]
    exact ⟨rfl, rfl, rfl, rfl, rfl, rfl⟩

/-- Refilling passes over no entries. -/
theorem skip_refilled (l : Listing) (c : Contents) : (l.refilled c).skip = l.skip := by
  rcases refilled_cases l c with ⟨hsame, -⟩ | ⟨hpage, -, -⟩
  · rw [hsame]
  · rw [hpage]
    rfl

/-- Refilling hands out nothing. -/
theorem yielded_refilled (l : Listing) (c : Contents) : (l.refilled c).yielded = l.yielded := by
  rcases refilled_cases l c with ⟨hsame, -⟩ | ⟨hpage, -, -⟩
  · rw [hsame]
  · rw [hpage]
    rfl

/-- Taking an entry keeps the listing's range and settings. -/
theorem follows_taken (l : Listing) (c : Contents) : Follows l (l.taken c) :=
  (follows_refilled l c).trans ⟨rfl, rfl, rfl, rfl, rfl, rfl⟩

/-! ## Handing out one document -/

/-- An entry is decoded as it reads. -/
theorem decode_cases (a : Aead) (e : Entry) (s : Scene) :
    (∃ d, e.read a = .ok d ∧ decode a e s = .ok d s) ∨
      ∃ error t, e.read a = .error error ∧ s.Stays t ∧ decode a e s = .error error t := by
  rw [Entry.read_eq]
  unfold decode
  cases hdecrypt : Stream.decrypt a e.2 with
  | error cause =>
    have hcall : StoreCall.onBarrier e.1 (Barrier.decrypt a e.2) s = _ :=
      StoreCall.onBarrier_error (Barrier.decrypt_error hdecrypt s.ambient)
    exact .inr ⟨_, s, rfl, Scene.Stays.refl s, Call.bind_error hcall⟩
  | ok plaintext =>
    have hcall : StoreCall.onBarrier e.1 (Barrier.decrypt a e.2) s = _ :=
      StoreCall.onBarrier_ok (Barrier.decrypt_ok hdecrypt s.ambient)
    rw [Call.bind_ok hcall]
    cases hbytes : Record.ofBytes e.1 plaintext with
    | error error =>
      obtain ⟨t, ht, hrun⟩ := StoreCall.decode_error hbytes s
      exact .inr ⟨error, t, by simp [hbytes, Except.map], ht, Call.bind_error hrun⟩
    | ok r =>
      refine .inl ⟨r.toDocument, by simp [hbytes, Except.map], ?_⟩
      rw [Call.bind_ok (StoreCall.decode_ok hbytes s)]
      rfl

/-- An entry is handed out as it reads, or it is put back. -/
theorem hand_cases (a : Aead) (e : Entry) (w : Walk) :
    (∃ d, w.listing.read a e = .ok d ∧
      hand a e w = .ok d { w with listing := { w.listing with
        yielded := w.listing.yielded + 1 } }) ∨
      ∃ error t, w.listing.read a e = .error error ∧ w.scene.Stays t ∧
        hand a e w = .error error
          ⟨{ w.listing with buffer := e :: w.listing.buffer }, t⟩ := by
  unfold hand read
  rw [Call.bind_ok (current_eq w)]
  cases hpaths : w.listing.pathsOnly with
  | true => exact .inl ⟨_, rfl, rfl⟩
  | false =>
    simp only [Bool.false_eq_true, if_false]
    rcases decode_cases a e w.scene with ⟨d, hread, hdecode⟩ | ⟨error, t, hread, ht, hdecode⟩
    · have hrun : decodeOrPutBack a e w = .ok d w := by
        unfold decodeOrPutBack onStore
        rw [hdecode]
      exact .inl ⟨d, hread, Call.bind_ok hrun⟩
    · have hrun : decodeOrPutBack a e w =
          .error error ⟨{ w.listing with buffer := e :: w.listing.buffer }, t⟩ := by
        unfold decodeOrPutBack onStore
        rw [hdecode]
        rfl
      exact .inr ⟨error, t, hread, ht, Call.bind_error hrun⟩

/-! ## One step -/

/-- The session of a listing lasts while the store has one with its number. -/
theorem session_of_isOpen {l : Listing} {w : Walk} {x : Session}
    (hopen : w.scene.store.session = some x) (hgeneration : x.generation = l.generation) :
    session l w = .ok x w := by
  unfold session
  rw [hopen]
  dsimp only
  rw [if_pos hgeneration]

/-- A step that is not stopped is at its end, or goes on in its session. -/
theorem next_of_verdict {ctx : Context} {w : Walk} (hreleased : w.listing.released = false)
    (hctx : ctx.verdict w.scene.ambient.boundaries = none) :
    ∃ s, w.scene.Stays s ∧ next ctx w =
      if w.listing.isComplete then .ok none { w with scene := s }
      else (session w.listing >>= fun x => nextFrom x.cipher w.listing.skip)
        { w with scene := s } := by
  obtain ⟨s, hs, hboundary⟩ := StoreCall.boundary_of_verdict hctx
  refine ⟨s, hs, ?_⟩
  unfold next
  rw [Call.bind_ok (current_eq w), hreleased, if_neg Bool.false_ne_true,
    Call.bind_ok (onStore_ok hboundary)]
  split_ifs <;> rfl

/-- A step that is stopped leaves the listing. -/
theorem next_of_interruption {ctx : Context} {w : Walk} {i : Interruption}
    (hreleased : w.listing.released = false)
    (hctx : ctx.verdict w.scene.ambient.boundaries = some i) :
    ∃ s, next ctx w = .error (.ofInterruption i) { w with scene := s } := by
  obtain ⟨s, hboundary⟩ := StoreCall.boundary_of_interruption hctx
  refine ⟨s, ?_⟩
  unfold next
  rw [Call.bind_ok (current_eq w), hreleased, if_neg Bool.false_ne_true,
    Call.bind_error (onStore_error hboundary)]

/-- A step that answers is at its limit, or it goes on in the session of the store. -/
theorem cases_of_next {ctx : Context} {w v : Walk} {x : Option Document}
    (h : next ctx w = .ok x v) :
    (w.listing.isComplete = true ∧ x = none) ∨
      ∃ session s, w.scene.store.session = some session ∧ w.scene.Stays s ∧
        nextFrom session.cipher w.listing.skip { w with scene := s } = .ok x v := by
  have hreleased : w.listing.released = false := by
    rw [Bool.eq_false_iff]
    intro hreleased
    unfold next at h
    rw [Call.bind_ok (current_eq w), if_pos hreleased] at h
    exact absurd h Call.throw_ne_ok
  cases hctx : ctx.verdict w.scene.ambient.boundaries with
  | some i =>
    obtain ⟨s, hnext⟩ := next_of_interruption hreleased hctx
    exact absurd (hnext.symm.trans h) (by simp)
  | none =>
    obtain ⟨s, hs, hnext⟩ := next_of_verdict hreleased hctx
    rw [hnext] at h
    split at h
    · rename_i hcomplete
      injection h with hx
      exact .inl ⟨hcomplete, hx.symm⟩
    · obtain ⟨session, u, hsession, hfrom⟩ := Call.exists_of_bind_ok h
      obtain ⟨hopen, rfl⟩ := session_eq_ok hsession
      exact .inr ⟨session, s, hs.store ▸ hopen, hs, hfrom⟩

/-- A step of a listing that has the entries `es` to hand out: it shows nothing at their end,
the first of them if it can be read, and the failure to read it if it cannot.  `Left v rest`
tells what the step leaves for the entries behind the first. -/
inductive Shows (read : Entry → Except StoreError Document) (Left : Walk → List Entry → Prop) :
    List Entry → EStateM.Result StoreError Walk (Option Document) → Prop
  | nothing (v : Walk) : Shows read Left [] (.ok none v)
  | document {e : Entry} {rest : List Entry} {d : Document} {v : Walk}
      (hread : read e = .ok d) (hleft : Left v rest) : Shows read Left (e :: rest) (.ok (some d) v)
  | failure {e : Entry} {error : StoreError} (rest : List Entry) (v : Walk)
      (hread : read e = .error error) : Shows read Left (e :: rest) (.error error v)

/-- What a step leaves may be said more weakly. -/
theorem Shows.imp {read : Entry → Except StoreError Document}
    {P Q : Walk → List Entry → Prop} {es : List Entry}
    {r : EStateM.Result StoreError Walk (Option Document)} (h : Shows read P es r)
    (hPQ : ∀ v rest, P v rest → Q v rest) : Shows read Q es r := by
  cases h with
  | nothing v => exact .nothing v
  | document hread hleft => exact .document hread (hPQ _ _ hleft)
  | failure rest v hread => exact .failure rest v hread

/-- The listing has handed out one more document and has `rest` still to come. -/
structure HandsOn (w v : Walk) (rest : List Entry) : Prop where
  scene : v.scene = w.scene
  follows : w.listing.Follows v.listing
  pending : v.listing.pending w.scene.ambient.engine.contents = rest
  skip : v.listing.skip = 0
  yielded : v.listing.yielded = w.listing.yielded + 1

section Healthy

variable {w : Walk} (hw : w.scene.ambient.engine.IsHealthy)
  (htext : w.scene.ambient.engine.contents.HasTextKeys) (hsize : 0 < w.listing.pageSize)

include hw htext hsize

omit hw htext in
/-- An entry that is taken at the front is shown, and what is behind it is still to come. -/
theorem shows_hand (a : Aead) (hskip : w.listing.skip = 0) {e : Entry} {rest : List Entry}
    (hes : w.listing.pending w.scene.ambient.engine.contents = e :: rest) :
    Shows (w.listing.read a) (HandsOn w) (e :: rest)
      ((hand a e >>= fun d => pure (some d))
        { w with listing := w.listing.taken w.scene.ambient.engine.contents }) := by
  have hpending := pending_taken (c := w.scene.ambient.engine.contents) hsize
  rw [hes, List.tail_cons] at hpending
  have hfollows := follows_taken w.listing w.scene.ambient.engine.contents
  rw [← hfollows.read]
  rcases hand_cases a e { w with
    listing := w.listing.taken w.scene.ambient.engine.contents } with
    ⟨d, hread, hhand⟩ | ⟨error, t, hread, -, hhand⟩
  · rw [Call.bind_ok hhand]
    refine .document hread ⟨rfl, ?_, hpending, ?_, ?_⟩
    · exact hfollows.trans ⟨rfl, rfl, rfl, rfl, rfl, rfl⟩
    · exact (skip_refilled _ _).trans hskip
    · exact congrArg (· + 1) (yielded_refilled _ _)
  · rw [Call.bind_error hhand]
    exact .failure rest _ hread

/-- A step passes over entries and shows the next one, whatever it passes over. -/
theorem shows_nextFrom (a : Aead) {skip : Nat} (hskip : w.listing.skip = skip) :
    Shows (w.listing.read a) (HandsOn w)
      ((w.listing.pending w.scene.ambient.engine.contents).drop skip) (nextFrom a skip w) := by
  induction skip generalizing w with
  | zero =>
    unfold nextFrom
    rw [Call.bind_ok (take_of_isHealthy hw htext hsize), List.drop_zero]
    cases hes : w.listing.pending w.scene.ambient.engine.contents with
    | nil => exact .nothing _
    | cons e rest => exact shows_hand hsize a hskip hes
  | succ skip ih =>
    have htake := take_of_isHealthy hw htext hsize
    have hpending := pending_taken (c := w.scene.ambient.engine.contents) hsize
    have hfollows := follows_taken w.listing w.scene.ambient.engine.contents
    unfold nextFrom
    rw [Call.bind_ok htake]
    cases hes : w.listing.pending w.scene.ambient.engine.contents with
    | nil => exact .nothing _
    | cons e rest =>
      rw [hes, List.tail_cons] at hpending
      have hchange : change (fun l => { l with skip })
          { w with listing := w.listing.taken w.scene.ambient.engine.contents } =
          .ok () { w with listing := { w.listing.taken w.scene.ambient.engine.contents with
            skip } } := rfl
      dsimp only [List.head?_cons]
      rw [Call.bind_ok hchange, List.drop_succ_cons]
      have hskipped : w.listing.Follows
          { w.listing.taken w.scene.ambient.engine.contents with skip } :=
        hfollows.trans ⟨rfl, rfl, rfl, rfl, rfl, rfl⟩
      -- What is pending behind the entry is what the rest of the step runs over.
      have hnext := ih (w := { w with listing :=
        { w.listing.taken w.scene.ambient.engine.contents with skip } }) hw htext
        (hskipped.pageSize ▸ hsize) rfl
      rw [hskipped.read] at hnext
      rw [← hpending]
      refine hnext.imp ?_
      intro v rest h
      refine ⟨h.scene, hskipped.trans h.follows, h.pending, h.skip, ?_⟩
      rw [h.yielded]
      exact congrArg (· + 1) (yielded_refilled _ _)

/-- The listing has `rest` still to hand out, over the same engine. -/
structure MovesOn (w v : Walk) (rest : List Entry) : Prop where
  scene : w.scene.Stays v.scene
  follows : w.listing.Follows v.listing
  window : v.listing.window w.scene.ambient.engine.contents = rest

/-- A step shows the first entry of the window. -/
theorem shows_next {session : Session} (hopen : w.scene.store.session = some session)
    (hgeneration : session.generation = w.listing.generation)
    (hreleased : w.listing.released = false) :
    Shows (w.listing.read session.cipher) (MovesOn w)
      (w.listing.window w.scene.ambient.engine.contents) (next .background w) := by
  have hctx : Context.background.verdict w.scene.ambient.boundaries = none := rfl
  obtain ⟨t, ht, hnext⟩ := next_of_verdict hreleased hctx
  rw [hnext]
  cases hcomplete : w.listing.isComplete with
  | true =>
    rw [window_of_isComplete hcomplete]
    exact .nothing _
  | false =>
    have hsession : Listing.session w.listing { w with scene := t } = _ :=
      session_of_isOpen (ht.store ▸ hopen) hgeneration
    rw [if_neg Bool.false_ne_true, Call.bind_ok hsession]
    have hshows := shows_nextFrom (w := { w with scene := t }) (ht.engine ▸ hw)
      (ht.engine ▸ htext) hsize session.cipher rfl
    dsimp only at hshows
    rw [ht.engine] at hshows
    generalize nextFrom session.cipher w.listing.skip { w with scene := t } = r at hshows
    cases hes : (w.listing.pending w.scene.ambient.engine.contents).drop w.listing.skip with
    | nil =>
      rw [hes] at hshows
      cases hshows with
      | nothing v =>
        unfold window
        simp only [hes, List.take_nil, ite_self]
        exact .nothing v
    | cons e rest =>
      rw [hes] at hshows
      rw [window_eq_cons hes hcomplete]
      cases hshows with
      | failure _ v hread => exact .failure _ v hread
      | document hread hleft =>
        refine .document hread ⟨?_, hleft.follows, ?_⟩
        · rw [hleft.scene]
          exact ht
        · have hpending := hleft.pending
          dsimp only at hpending
          rw [ht.engine] at hpending
          unfold window
          rw [hpending, hleft.skip, hleft.follows.limit, hleft.yielded, List.drop_zero]

/-- The steps up to the end show the window, or the first failure in it. -/
theorem answer_drain {session : Session} (hopen : w.scene.store.session = some session)
    (hgeneration : session.generation = w.listing.generation)
    (hreleased : w.listing.released = false) {fuel : Nat} (done : List Document)
    (hfuel : (w.listing.window w.scene.ambient.engine.contents).length < fuel) :
    Call.answer (drain .background fuel done w) =
      ((w.listing.window w.scene.ambient.engine.contents).mapM
        (w.listing.read session.cipher)).map fun ds => some (done.reverse ++ ds) := by
  induction fuel generalizing w done with
  | zero => omega
  | succ fuel ih =>
    have hshows := shows_next hw htext hsize hopen hgeneration hreleased
    unfold drain
    cases hwindow : w.listing.window w.scene.ambient.engine.contents with
    | nil =>
      rw [hwindow] at hshows
      generalize hnext : next .background w = r at hshows
      cases hshows with
      | nothing v =>
        rw [Call.bind_ok hnext]
        simp [Call.answer, Pure.pure, EStateM.pure, Except.pure, Except.map]
    | cons e rest =>
      rw [hwindow] at hshows hfuel
      generalize hnext : next .background w = r at hshows
      cases hshows with
      | failure _ v hread =>
        rw [Call.bind_error hnext, List.mapM_cons, hread]
        rfl
      | @document _ _ d v hread hleft =>
        rw [Call.bind_ok hnext, List.mapM_cons, hread]
        dsimp only
        have hcontents : v.scene.ambient.engine.contents = w.scene.ambient.engine.contents := by
          rw [hleft.scene.engine]
        have hrest : v.listing.window v.scene.ambient.engine.contents = rest := by
          rw [hcontents, hleft.window]
        rw [ih (w := v) (hleft.scene.engine ▸ hw) (hcontents ▸ htext)
          (hleft.follows.pageSize ▸ hsize) (hleft.scene.store ▸ hopen)
          (hleft.follows.generation ▸ hgeneration) (hleft.follows.released ▸ hreleased) (d :: done)
          (by rw [hrest]; simpa using hfuel), hrest, hleft.follows.read]
        cases hread : rest.mapM (w.listing.read session.cipher) with
        | error error => rfl
        | ok ds => simp [Except.map, bind, Except.bind, Pure.pure, Except.pure]

end Healthy

/-- A listing has less to hand out than its steps are bound by. -/
theorem length_window_lt_bound (w : Walk) :
    (w.listing.window w.scene.ambient.engine.contents).length < bound w := by
  have hahead := w.scene.ambient.engine.contents.length_ahead_le w.listing.range w.listing.after
  have hpending : (w.listing.pending w.scene.ambient.engine.contents).length ≤
      w.listing.buffer.length + w.scene.ambient.engine.contents.size := by
    unfold pending
    split
    · simp
    · simp only [List.length_append, length_view]
      omega
  have hwindow : (w.listing.window w.scene.ambient.engine.contents).length ≤
      (w.listing.pending w.scene.ambient.engine.contents).length := by
    unfold window
    split
    · simp
    · simp only [List.length_take, List.length_drop]
      omega
  unfold bound
  omega

end Listing

/-! ## Whole listings -/

/-- A listing that a session starts. -/
def Listing.fresh (session : Session) (pageSize : Nat) (range : String) (window : Window) :
    Listing where
  generation := session.generation
  range
  skip := window.index
  limit := window.limit
  pathsOnly := window.pathsOnly
  pageSize

/-- The entries of a window, of all entries of an engine: those of the range without the first
ones up to the index, cut to the limit. -/
def Window.of (window : Window) (parent : String) (es : List Entry) : List Entry :=
  Range.cut window.limit
    ((es.filter fun e => Range.begins (Path.listingRange parent window.stem) e.1).drop window.index)

/-- A fresh listing has the entries of its window to hand out. -/
theorem Listing.window_fresh (session : Session) (pageSize : Nat) (parent : String)
    (window : Window) (c : Contents) :
    (fresh session pageSize (Path.listingRange parent window.stem) window).window c =
      (fresh session pageSize (Path.listingRange parent window.stem) window).view
        (window.of parent c.entries) := by
  have hahead : c.ahead (Path.listingRange parent window.stem) none =
      c.entries.filter fun e => Range.begins (Path.listingRange parent window.stem) e.1 := by
    unfold Contents.ahead Range.ahead
    refine List.filter_congr ?_
    intro e _
    simp [LogDirectory.isSeen]
  unfold Listing.window pending Window.of
  simp only [fresh, List.nil_append, Bool.false_eq_true, if_false, Nat.sub_zero, hahead]
  unfold view Range.cut
  dsimp only
  cases window.pathsOnly with
  | true =>
    simp only [if_true]
    split
    · rw [List.map_drop]
    · rw [List.map_take, List.map_drop]
  | false => simp only [Bool.false_eq_true, if_false]

namespace Store

open StoreCall

/-- A listing starts in the session of its store, with nothing read. -/
theorem list_of_isOpen {s : Scene} {session : Session} (hopen : s.store.session = some session)
    (parent : String) (window : Window) :
    ∃ t, s.Stays t ∧ list .background parent window s =
      .ok (.fresh session s.store.pageSize (Path.listingRange parent window.stem) window) t := by
  obtain ⟨u, hu, hboundary⟩ := boundary_background s
  have hsession : openSession u = .ok session u :=
    openSession_of_isOpen (by rw [hu.store, hopen])
  refine ⟨u.tell (.listed (Path.listingRange parent window.stem)), ⟨hu.store, hu.engine⟩, ?_⟩
  have htell : tell (.listed (Path.listingRange parent window.stem)) u =
      .ok () (u.tell (.listed (Path.listingRange parent window.stem))) := rfl
  unfold list
  rw [Call.bind_ok hboundary, Call.bind_ok hsession]
  refine (Call.bind_ok htell).trans ?_
  rw [← hu.store]
  rfl

/-- What is collected from a listing is what its steps show. -/
theorem answer_collect (ctx : Context) (l : Listing) (s : Scene) :
    Call.answer ((l.run (Listing.collect ctx) >>= fun x => pure x.1 :
        StoreCall (Option (List Document))) s) =
      Call.answer (Listing.drain ctx (Listing.bound ⟨l, s⟩) [] ⟨l, s⟩) := by
  cases hdrain : Listing.drain ctx (Listing.bound ⟨l, s⟩) [] ⟨l, s⟩ with
  | ok ds w =>
    have hrun : l.run (Listing.collect ctx) s = .ok (ds, w.listing) w.scene := by
      unfold Listing.run Listing.collect
      rw [hdrain]
    rw [Call.bind_ok hrun]
    rfl
  | error e w =>
    have hrun : l.run (Listing.collect ctx) s = .error e w.scene := by
      unfold Listing.run Listing.collect
      rw [hdrain]
    rw [Call.bind_error hrun]
    rfl

section Healthy

variable {s : Scene} {session : Session} (hopen : s.store.session = some session)
  (hs : s.ambient.engine.IsHealthy)

include hopen hs

/-- The documents below a parent are those of the window, or the first failure in it. -/
theorem answer_documents (htext : s.ambient.engine.contents.HasTextKeys) (parent : String)
    (window : Window) :
    Call.answer (documents .background parent window s) =
      if window.pathsOnly then
        .ok (some ((window.of parent s.ambient.engine.contents.entries).map fun e =>
          { path := Path.normalize e.1, fields := [], createdAt := none, updatedAt := none }))
      else
        ((window.of parent s.ambient.engine.contents.entries).mapM
          (Entry.read session.cipher)).map some := by
  obtain ⟨t, ht, hlist⟩ := list_of_isOpen hopen parent window
  have hsize : 0 < s.store.pageSize := Nat.le_max_left 1 s.store.config.pageSize
  have hdrain := Listing.answer_drain
    (w := ⟨.fresh session s.store.pageSize (Path.listingRange parent window.stem) window, t⟩)
    (ht.engine ▸ hs) (ht.engine ▸ htext) hsize (ht.store ▸ hopen) rfl rfl []
    (Listing.length_window_lt_bound _)
  dsimp only at hdrain
  rw [ht.engine, Listing.window_fresh] at hdrain
  unfold documents
  rw [Call.bind_ok hlist]
  refine (answer_collect .background _ t).trans (hdrain.trans ?_)
  have hread : ∀ e, Listing.read
      (.fresh session s.store.pageSize (Path.listingRange parent window.stem) window)
      session.cipher e =
      if window.pathsOnly then
        .ok { path := Path.normalize e.1, fields := [], createdAt := none, updatedAt := none }
      else Entry.read session.cipher e :=
    fun _ => rfl
  have hview : ∀ es, Listing.view
      (.fresh session s.store.pageSize (Path.listingRange parent window.stem) window) es =
      if window.pathsOnly then es.map fun e => (e.1, []) else es :=
    fun _ => rfl
  rw [hview, funext hread]
  cases window.pathsOnly with
  | true =>
    simp only [if_true]
    have hall := List.mapM_pure (m := Except StoreError)
      (l := (window.of parent s.ambient.engine.contents.entries).map fun e => (e.1, ([] : Bytes)))
      (f := fun e => (⟨Path.normalize e.1, [], none, none⟩ : Document))
    refine (congrArg (Except.map _) hall).trans ?_
    simp [Except.map, Pure.pure, Except.pure]
  | false => simp only [Bool.false_eq_true, if_false, List.reverse_nil, List.nil_append]

/-- What a store gets at a path is what the entry there reads. -/
theorem answer_get (raw : String) :
    Call.answer (get .background raw s) =
      match s.ambient.engine.value? (Path.normalize raw) with
      | none => .ok none
      | some c => (Entry.read session.cipher (Path.normalize raw, c)).map some := by
  obtain ⟨t, ht, hboundary⟩ := boundary_background s
  have hsession : openSession t = .ok session t :=
    openSession_of_isOpen (by rw [ht.store, hopen])
  have hrecord : Call.answer (readRecord session.cipher (Path.normalize raw) t) = _ :=
    answer_readRecord (ht.engine ▸ hs)
  rw [ht.engine] at hrecord
  rw [← Engine.record?_map]
  unfold get
  rw [Call.bind_ok hboundary, Call.bind_ok hsession]
  cases hread : readRecord session.cipher (Path.normalize raw) t with
  | ok x u =>
    rw [Call.bind_ok hread, ← hrecord, hread]
    rfl
  | error e u =>
    rw [Call.bind_error hread, ← hrecord, hread]
    rfl

end Healthy

/-- Over a healthy engine whose keys are text, the documents below a parent are those of the
window, whatever the size of the pages.  Without data there is one for every key, with the
normalized key as its path and nothing else in it.  With data they are read from the entries, up
to the first that cannot be read, and each is what the store gets at its key. -/
theorem documents_eq_window {s : Scene} {session : Session} {es : List Entry}
    (hopen : s.store.session = some session) (hs : s.ambient.engine.IsHealthy)
    (htext : s.ambient.engine.contents.HasTextKeys)
    (hes : s.ambient.engine.contents.IsListedBy es) (parent : String) (window : Window) :
    (Call.answer (documents .background parent window s) =
      if window.pathsOnly then
        .ok (some ((window.of parent es).map fun e =>
          { path := Path.normalize e.1, fields := [], createdAt := none, updatedAt := none }))
      else ((window.of parent es).mapM (Entry.read session.cipher)).map some) ∧
    ∀ e ∈ es, Path.normalize e.1 = e.1 →
      Call.answer (get .background e.1 s) = (Entry.read session.cipher e).map some := by
  constructor
  · rw [hes.eq_entries]
    exact answer_documents hopen hs htext parent window
  · intro e he hpath
    have hvalue : s.ambient.engine.value? e.1 = some e.2 := (hes.mem_iff e).1 he
    rw [answer_get hopen hs, hpath, hvalue]

/-- Of four entries that cannot be read, the second and the third are listed by their keys,
and the second one stops a listing with data; a page holds three. -/
theorem documents_of_four_entries :
    let es : List Entry := [("/a", []), ("/b", []), ("/c", []), ("/d", [])]
    let session : Session := ⟨1, (Key.uniform 7).cipher, .empty⟩
    let s : Scene :=
      ⟨{ config := { Config.standard with pageSize := 3 }, session := some session },
        { engine := { contents := .volatile ⟨es, by decide⟩ }, clock := .standard,
          entropy := ⟨fun _ => 0, 0⟩ }⟩
    s.store.session = some session ∧ s.ambient.engine.IsHealthy ∧
      s.ambient.engine.contents.HasTextKeys ∧ s.ambient.engine.contents.IsListedBy es ∧
      Call.answer (documents .background "/" { index := 1, limit := 2, pathsOnly := true } s) =
        .ok (some [⟨"/b", [], none, none⟩, ⟨"/c", [], none, none⟩]) ∧
      ∃ error, Call.answer (documents .background "" { index := 1 } s) = .error error ∧
        Call.answer (get .background "/b" s) = .error error := by
  intro es session s
  have hopen : s.store.session = some session := rfl
  have hs : s.ambient.engine.IsHealthy := ⟨.inl rfl, rfl, trivial⟩
  have htext : s.ambient.engine.contents.HasTextKeys := trivial
  have hes : s.ambient.engine.contents.IsListedBy es := Contents.isListedBy_entries _
  refine ⟨hopen, hs, htext, hes, ?_, ?_⟩
  · have h := (documents_eq_window hopen hs htext hes "/"
      { index := 1, limit := 2, pathsOnly := true }).1
    have hwindow : Window.of { index := 1, limit := 2, pathsOnly := true } "/" es =
        [("/b", []), ("/c", [])] := by decide
    rw [h, hwindow]
    rfl
  · obtain ⟨h, hget⟩ := documents_eq_window hopen hs htext hes "" { index := 1 }
    have hwindow : Window.of { index := 1 } "" es = [("/b", []), ("/c", []), ("/d", [])] := by
      decide
    rw [h, hwindow, hget ("/b", []) (by simp [es]) (by decide)]
    exact ⟨_, rfl, rfl⟩

end Store

end Strongbox
