import Mathlib.Logic.Function.Basic
import Mathlib.Logic.Relation
import Strongbox.Proofs.Fleet
import Strongbox.Proofs.Store.Listing
import Strongbox.Proofs.Store.Writing

/-!
# Integrity against a hostile engine

A fleet is watched: the watch notes everything that is encrypted, and the listings that were
started.  Between any two operations the engine may be replaced by any other, as long as
none of its values is a forgery.  What the stores return was then written before, as it is,
at the key under which the engine had it.  The top statement is `Watch.isGenuine_of_run`.
-/

set_option autoImplicit false

namespace Strongbox

/-! ## Commands -/

/-- What a store may be told to do. -/
inductive Command where
  | openStore (ctx : Context)
  | closeStore
  | create (ctx : Context) (raw : String) (fields : Fields)
  | set (ctx : Context) (raw : String) (fields : Fields) (mode : WriteMode)
  | increment (ctx : Context) (raw : String)
  | delete (ctx : Context) (raw : String)
  | deleteAll (ctx : Context) (paths : List String)
  | exists (ctx : Context) (raw : String)
  | get (ctx : Context) (raw : String)
  | getAll (ctx : Context) (paths : List String)
  | last (ctx : Context) (stem : String)
  | documents (ctx : Context) (parent : String) (window : Window)
  | count (ctx : Context) (parent stem : String)
  | collections (ctx : Context) (parent : String)

namespace Command

/-- The scene after a command; stores are opened with the given cipher. -/
def run (a : Aead) (s : Scene) : Command → Scene
  | .openStore ctx => Call.after (Store.openWith ctx a s)
  | .closeStore => Call.after (Store.close s)
  | .create ctx raw fields => Call.after (Store.create ctx raw fields s)
  | .set ctx raw fields mode => Call.after (Store.set ctx raw fields mode s)
  | .increment ctx raw => Call.after (Store.increment ctx raw s)
  | .delete ctx raw => Call.after (Store.delete ctx raw s)
  | .deleteAll ctx paths => Call.after (Store.deleteAll ctx paths s)
  | .exists ctx raw => Call.after (Store.exists? ctx raw s)
  | .get ctx raw => Call.after (Store.get ctx raw s)
  | .getAll ctx paths => Call.after (Store.getAll ctx paths s)
  | .last ctx stem => Call.after (Store.last ctx stem s)
  | .documents ctx parent window => Call.after (Store.documents ctx parent window s)
  | .count ctx parent stem => Call.after (Store.count ctx parent stem s)
  | .collections ctx parent => Call.after (Store.collections ctx parent s)

/-- The draft of a command: only creations, writes and increments write. -/
def draft : Command → StoreCall (Option Draft)
  | .create ctx raw fields => do
    let d ← Store.createDraft ctx raw fields
    pure (some d)
  | .set ctx raw fields mode => do
    let d ← Store.setDraft ctx raw fields mode
    pure (some d)
  | .increment ctx raw => Store.incrementDraft ctx raw
  | _ => pure none

/-- The encryption that a command makes. -/
def writing (c : Command) (s : Scene) : Option Writing := c.draft.writingOf s

variable {a : Aead} {s : Scene}

/-- Every command writes no more than the encryption that it makes. -/
theorem yields_run (ha : a.Lawful) (c : Command)
    (hcipher : ∀ session, s.store.session = some session → session.cipher = a) :
    s.Yields a (c.writing s) (c.run a s) := by
  cases c with
  | openStore ctx => exact Store.yields_openWith ctx s
  | closeStore => exact Store.yields_close s
  | create ctx raw fields => exact .of_writes (Store.writes_create ha ctx raw fields hcipher)
  | set ctx raw fields mode => exact .of_writes (Store.writes_set ha ctx raw fields mode hcipher)
  | increment ctx raw => exact .of_writes (Store.writes_increment ha ctx raw hcipher)
  | delete ctx raw => exact .of_removes (Store.leads_delete ctx raw s)
  | deleteAll ctx paths => exact .of_removes (Store.leads_deleteAll ctx paths s)
  | «exists» ctx raw => exact .of_keeps (Store.leads_exists? ctx raw s).keeps
  | get ctx raw => exact .of_keeps (Store.leads_get ctx raw s).keeps
  | getAll ctx paths => exact .of_keeps (Store.leads_getAll ctx paths s).keeps
  | last ctx stem => exact .of_keeps (Store.leads_last ctx stem s).keeps
  | documents ctx parent window => exact .of_keeps (Store.leads_documents ctx parent window s).keeps
  | count ctx parent stem => exact .of_keeps (Store.leads_count ctx parent stem s).keeps
  | collections ctx parent => exact .of_keeps (Store.leads_collections ctx parent s).keeps

/-- What a command encrypts is the record of its draft. -/
theorem isOf_of_draft {c : Command} {d : Draft} {t : Scene} (h : c.draft s = .ok (some d) t) :
    d.IsOf s := by
  cases c with
  | create ctx raw fields =>
    obtain ⟨d', u, hdraft, hpure⟩ := Call.exists_of_bind_ok h
    injection hpure with hpure
    injection hpure with hpure
    rw [← hpure]
    exact Store.isOf_createDraft hdraft
  | set ctx raw fields mode =>
    obtain ⟨d', u, hdraft, hpure⟩ := Call.exists_of_bind_ok h
    injection hpure with hpure
    injection hpure with hpure
    rw [← hpure]
    exact Store.isOf_setDraft hdraft
  | increment ctx raw => exact Store.isOf_incrementDraft h
  | _ =>
    injection h with hnone
    exact absurd hnone (by simp)

/-- The times that a command writes are times of the scene. -/
theorem hasTime_of_writing {c : Command} {x : Writing}
    (hcipher : ∀ session, s.store.session = some session → session.cipher = a)
    (h : c.writing s = some x) :
    s.HasTime a x.record.createdAt ∧ s.HasTime a x.record.updatedAt := by
  obtain ⟨d, t, hdraft, hrecord⟩ := StoreCall.exists_of_writingOf h
  obtain ⟨⟨session, hsession, hsame⟩, hcreated, hupdated⟩ := isOf_of_draft hdraft
  rw [hcipher session hsession] at hsame
  rw [← hsame] at hcreated hupdated
  rw [hrecord]
  exact ⟨hcreated, hupdated⟩

end Command

/-! ## Watched fleets -/

/-- A fleet, the listings started in it, and everything encrypted so far, whether the engine
then took it or not. -/
structure Watch where
  fleet : Fleet
  listings : Nat → Option Listing
  log : List Writing

namespace Watch

/-- The value is no forgery at this moment: the cipher opens none of its pieces but those that
it has sealed in the run so far. -/
def Unforged (a : Aead) (w : Watch) (c : Bytes) : Prop :=
  Stream.Unforged a (w.log.map Writing.call) c

/-- The document has the key as its path, and the fields and both times of a record that was
written before at this path. -/
def Wrote (w : Watch) (key : String) (d : Document) : Prop :=
  ∃ x ∈ w.log, x.record.path = key ∧
    d = { path := key
          fields := x.record.fields
          createdAt := some x.record.createdAt
          updatedAt := some x.record.updatedAt }

/-- The command `c` of the store at the place `i`. -/
def command (a : Aead) (i : Nat) (c : Command) (w : Watch) : Watch where
  fleet := w.fleet.withScene i (c.run a (w.fleet.scene i))
  listings := w.listings
  log := w.log ++ (c.writing (w.fleet.scene i)).toList

/-- The start of a listing, which is kept at the place `j` if there is one. -/
def list (i j : Nat) (ctx : Context) (parent : String) (window : Window) (w : Watch) : Watch :=
  let r := Store.list ctx parent window (w.fleet.scene i)
  { w with
    fleet := w.fleet.withScene i (Call.after r)
    listings := Function.update w.listings j (Call.answer r).toOption }

/-- A step of the listing at the place `j`. -/
def step (i j : Nat) (ctx : Context) (l : Listing) (w : Watch) : Watch :=
  let r := Listing.next ctx ⟨l, w.fleet.scene i⟩
  { w with
    fleet := w.fleet.withScene i (Call.after r).scene
    listings := Function.update w.listings j (some (Call.after r).listing) }

/-- What happens to a watched fleet. -/
inductive Move (a : Aead) : Watch → Watch → Prop
  | command (w : Watch) (i : Nat) (c : Command) : Move a w (w.command a i c)
  | list (w : Watch) (i j : Nat) (ctx : Context) (parent : String) (window : Window) :
    Move a w (w.list i j ctx parent window)
  | step (w : Watch) (i j : Nat) (ctx : Context) {l : Listing} (h : w.listings j = some l) :
    Move a w (w.step i j ctx l)
  | release (w : Watch) (j : Nat) :
    Move a w { w with
      listings := Function.update w.listings j ((w.listings j).map Listing.release) }
  /-- Between two operations a store is lost, and a new one takes its place. -/
  | loseStore (w : Watch) (i : Nat) (config : Config) :
    Move a w { w with fleet := w.fleet.withScene i ⟨.new config, w.fleet.ambient⟩ }
  /-- The engine is replaced by any other that forges nothing. -/
  | replace (w : Watch) (engine : Engine)
      (h : ∀ key c, engine.Holds key c → w.Unforged a c) :
    Move a w { w with fleet := { w.fleet with ambient := { w.fleet.ambient with engine } } }

/-! ## What is no forgery -/

/-- At every moment the stores have the given cipher, and neither the engine nor the buffer of
a listing has a forgery. -/
structure Sound (a : Aead) (w : Watch) : Prop where
  cipher : w.fleet.HasCipher a
  held : ∀ key c, w.fleet.ambient.engine.Holds key c → w.Unforged a c
  buffered : ∀ j l, w.listings j = some l → l.pathsOnly = false →
    ∀ e ∈ l.buffer, w.Unforged a e.2
  clock : w.fleet.ambient.clock.IsProper

section Sound

variable {a : Aead} {w v : Watch}

/-- A value that is no forgery stays one while the log grows. -/
theorem Unforged.of_subset {c : Bytes} (h : w.Unforged a c) (hlog : w.log ⊆ v.log) :
    v.Unforged a c :=
  h.mono (List.map_subset Writing.call hlog)

/-- A store's operation leaves no forgery: the engine then has nothing new but a ciphertext of
the log. -/
theorem Sound.withScene (ha : a.Lawful) (h : w.Sound a) {i : Nat} {x : Option Writing} {t : Scene}
    (hyields : (w.fleet.scene i).Yields a x t) :
    Sound a { w with fleet := w.fleet.withScene i t, log := w.log ++ x.toList } := by
  have hlog : w.log ⊆ w.log ++ x.toList := List.subset_append_left _ _
  refine ⟨h.cipher.withScene (hyields.cipher (h.cipher i)), ?_, ?_, ?_⟩
  · intro key c hc
    rcases hyields.holds key c hc with hold | ⟨y, hy, hciphertext⟩
    · exact (h.held key c hold).of_subset hlog
    · have hmem : y ∈ w.log ++ x.toList := List.mem_append_right _ (Option.mem_toList.2 hy)
      exact Stream.unforged_ciphertext ha (List.mem_map_of_mem hmem) hciphertext
  · intro j l hl hdata e he
    exact (h.buffered j l hl hdata e he).of_subset hlog
  · intro n
    show (t.ambient.clock.readings n).IsProper
    rw [hyields.readings]
    exact h.clock n

/-- A step that writes nothing keeps a watch sound. -/
theorem Sound.withScene_none (ha : a.Lawful) (h : w.Sound a) {i : Nat} {t : Scene}
    (hyields : (w.fleet.scene i).Yields a none t) :
    Sound a { w with fleet := w.fleet.withScene i t } := by
  have hsound := h.withScene ha hyields
  rw [Option.toList_none, List.append_nil] at hsound
  exact hsound

/-- A listing whose buffer holds no forgery keeps a watch sound. -/
theorem Sound.withListing (h : w.Sound a) (j : Nat) {x : Option Listing}
    (hx : ∀ l, x = some l → l.pathsOnly = false → ∀ e ∈ l.buffer, w.Unforged a e.2) :
    Sound a { w with listings := Function.update w.listings j x } := by
  refine ⟨h.cipher, h.held, ?_, h.clock⟩
  intro j' l hl
  dsimp only at hl
  by_cases hsame : j' = j
  · subst hsame
    rw [Function.update_self] at hl
    exact hx l hl
  · rw [Function.update_of_ne hsame] at hl
    exact h.buffered j' l hl

/-- What a listing may come upon is no forgery. -/
theorem Sound.unforged_of_offers (h : w.Sound a) {i j : Nat} {l : Listing}
    (hl : w.listings j = some l) (hdata : l.pathsOnly = false) {e : Entry}
    (he : Walk.Offers ⟨l, w.fleet.scene i⟩ e) : w.Unforged a e.2 := by
  rcases he with he | he
  · exact h.buffered j l hl hdata e he
  · exact h.held e.1 e.2 he

/-- Every move keeps a watch sound. -/
theorem Move.sound (ha : a.Lawful) (h : w.Sound a) (hmove : Move a w v) : v.Sound a := by
  cases hmove with
  | command i c => exact h.withScene ha (c.yields_run ha (h.cipher i))
  | list i j ctx parent window =>
    have hkeeps := (Store.leads_list ctx parent window (w.fleet.scene i)).keeps
    refine (h.withScene_none ha (.of_keeps hkeeps)).withListing j ?_
    intro l hl _ e he
    cases hrun : Store.list ctx parent window (w.fleet.scene i) with
    | error error t =>
      rw [hrun] at hl
      exact absurd hl (by simp [Call.answer, Except.toOption])
    | ok l' t =>
      rw [hrun] at hl
      injection hl with hl
      rw [← hl, (Store.list_eq_ok hrun).1] at he
      exact absurd he List.not_mem_nil
  | @step i j ctx l hl =>
    have hkeeps := Listing.keeps_next ctx ⟨l, w.fleet.scene i⟩
    refine (h.withScene_none ha (.of_keeps hkeeps.scene)).withListing j ?_
    intro l' hl' hdata e he
    injection hl' with hl'
    rw [← hl'] at hdata he
    rw [hkeeps.pathsOnly] at hdata
    exact h.unforged_of_offers hl hdata (hkeeps.buffer hdata e he)
  | release j =>
    refine h.withListing j ?_
    intro l hl _ e he
    obtain ⟨l', -, hsame⟩ := Option.map_eq_some_iff.1 hl
    rw [← hsame] at he
    exact absurd he List.not_mem_nil
  | loseStore i config =>
    refine h.withScene_none ha ⟨?_, rfl, fun _ _ hc => .inl hc⟩
    intro _ session hopen
    exact absurd hopen (by simp [Store.new])
  | replace engine hengine => exact ⟨h.cipher, hengine, h.buffered, h.clock⟩

end Sound

/-! ## What was written -/

/-- No stem was drawn twice, and all fields that were written read back. -/
structure IsRegular (w : Watch) : Prop where
  stems : (w.log.map fun x => x.call.stem).Nodup
  fields : ∀ x ∈ w.log, x.record.fields.ReadsBack

/-- The times of all written records are proper instants. -/
def HasProperTimes (w : Watch) : Prop :=
  ∀ x ∈ w.log, x.record.createdAt.IsProper ∧ x.record.updatedAt.IsProper

section Run

variable {a : Aead} {w v : Watch}

/-- A document that is read from what is no forgery was written at its key. -/
theorem wrote_of_reads (ha : a.Lawful) (hregular : w.IsRegular) (htimes : w.HasProperTimes)
    {key : String} {c : Bytes} {d : Document} (hc : w.Unforged a c)
    (hreads : Entry.Reads a (key, c) d) : w.Wrote key d := by
  obtain ⟨p, r, hdecrypt, hrecord, rfl⟩ := hreads
  have hstems : ((w.log.map Writing.call).map Stream.Call.stem).Nodup := by
    rw [List.map_map]
    exact hregular.stems
  obtain ⟨call, hcall, -, hplaintext⟩ := Stream.exists_call_of_decrypt ha hstems hc hdecrypt
  obtain ⟨x, hx, rfl⟩ := List.mem_map.1 hcall
  obtain ⟨hparse, hpath⟩ := Record.ofBytes_eq_ok hrecord
  have hback : x.record.ReadsBack :=
    Record.readsBack_of_isProper (hregular.fields x hx) (htimes x hx).1 (htimes x hx).2
  have hsame : x.record = r := by
    have hbytes : x.record.toBytes = p := hplaintext
    unfold Record.ReadsBack at hback
    rw [hbytes, hparse] at hback
    injection hback with hback
    exact hback.symm
  have hkey : key = x.record.path := by rw [hsame, hpath]
  subst hsame hkey
  exact ⟨x, hx, rfl, rfl⟩

/-- A time of the scene is a reading of the clock or was written before. -/
theorem isProper_of_hasTime (ha : a.Lawful) (h : w.Sound a) (hregular : w.IsRegular)
    (htimes : w.HasProperTimes) {i : Nat} {time : Time.Instant}
    (htime : (w.fleet.scene i).HasTime a time) : time.IsProper := by
  rcases htime with ⟨n, rfl⟩ | ⟨key, c, r, hc, hreads, rfl⟩
  · exact h.clock n
  · obtain ⟨x, hx, -, hdocument⟩ := wrote_of_reads ha hregular htimes (h.held key c hc) hreads
    have hcreated : some r.createdAt = some x.record.createdAt :=
      congrArg Document.createdAt hdocument
    injection hcreated with hcreated
    rw [hcreated]
    exact (htimes x hx).1

/-- Every move of a regular watch keeps all times proper. -/
theorem Move.hasProperTimes (ha : a.Lawful) (h : w.Sound a) (hregular : w.IsRegular)
    (htimes : w.HasProperTimes) (hmove : Move a w v) : v.HasProperTimes := by
  cases hmove with
  | command i c =>
    intro x hx
    rcases List.mem_append.1 hx with hx | hx
    · exact htimes x hx
    · obtain ⟨hcreated, hupdated⟩ :=
        Command.hasTime_of_writing (h.cipher i) (Option.mem_toList.1 hx)
      exact ⟨isProper_of_hasTime ha h hregular htimes hcreated,
        isProper_of_hasTime ha h hregular htimes hupdated⟩
  | list i j ctx parent window => exact htimes
  | step i j ctx hl => exact htimes
  | release j => exact htimes
  | loseStore i config => exact htimes
  | replace engine hengine => exact htimes

/-- The log only grows. -/
theorem Move.log_prefix (hmove : Move a w v) : w.log <+: v.log := by
  cases hmove with
  | command i c => exact List.prefix_append _ _
  | list i j ctx parent window => exact List.prefix_refl _
  | step i j ctx hl => exact List.prefix_refl _
  | release j => exact List.prefix_refl _
  | loseStore i config => exact List.prefix_refl _
  | replace engine hengine => exact List.prefix_refl _

/-- A watch whose log begins a regular one is regular. -/
theorem IsRegular.of_prefix (h : v.IsRegular) (hlog : w.log <+: v.log) : w.IsRegular := by
  refine ⟨h.stems.sublist (hlog.sublist.map _), fun x hx => ?_⟩
  exact h.fields x (hlog.subset hx)

/-- The invariants hold along every run, by induction on it. -/
theorem invariants_of_run (ha : a.Lawful) (hsound : w.Sound a) (htimes : w.HasProperTimes)
    (hrun : Relation.ReflTransGen (Move a) w v) :
    v.Sound a ∧ (v.IsRegular → v.HasProperTimes) := by
  induction hrun with
  | refl => exact ⟨hsound, fun _ => htimes⟩
  | tail _ hmove ih =>
    obtain ⟨hsound', htimes'⟩ := ih
    refine ⟨hmove.sound ha hsound', fun hregular => ?_⟩
    have hregular' := hregular.of_prefix hmove.log_prefix
    exact hmove.hasProperTimes ha hsound' hregular' (htimes' hregular')

end Run

/-! ## What stores return -/

/-- Every document that a store returns at this moment was written before, at the key that
was asked for or under which the engine has it. -/
structure IsGenuine (w : Watch) : Prop where
  get : ∀ i ctx raw d t, Store.get ctx raw (w.fleet.scene i) = .ok (some d) t →
    w.Wrote (Path.normalize raw) d
  /-- The documents are those of some of the paths, in order. -/
  getAll : ∀ i ctx paths ds t, Store.getAll ctx paths (w.fleet.scene i) = .ok ds t →
    ∃ keys, keys.Sublist (paths.map Path.normalize) ∧ List.Forall₂ w.Wrote keys ds
  last : ∀ i ctx stem d t, Store.last ctx stem (w.fleet.scene i) = .ok (some d) t →
    ∃ key c, w.fleet.ambient.engine.contents.last (Path.anchored stem) = .ok (some (key, c)) ∧
      w.Wrote key d
  documents : ∀ i ctx parent window ds t,
    Store.documents ctx parent window (w.fleet.scene i) = .ok (some ds) t →
      window.pathsOnly = false →
        ∀ d ∈ ds, ∃ key c, w.fleet.ambient.engine.Holds key c ∧ w.Wrote key d
  /-- The key is that of an entry that the listing has read before or that the engine has. -/
  next : ∀ i j ctx l d v, w.listings j = some l → l.pathsOnly = false →
    Listing.next ctx ⟨l, w.fleet.scene i⟩ = .ok (some d) v →
      ∃ e, Walk.Offers ⟨l, w.fleet.scene i⟩ e ∧ w.Wrote e.1 d

/-- A sound and regular watch with proper times is genuine. -/
theorem isGenuine_of_sound {a : Aead} {w : Watch} (ha : a.Lawful) (h : w.Sound a)
    (hregular : w.IsRegular) (htimes : w.HasProperTimes) : w.IsGenuine := by
  have hwrote : ∀ key c d, w.fleet.ambient.engine.Holds key c → Entry.Reads a (key, c) d →
      w.Wrote key d := fun key c d hc hreads =>
    wrote_of_reads ha hregular htimes (h.held key c hc) hreads
  constructor
  case get =>
    intro i ctx raw d t hrun
    obtain ⟨session, c, hsession, hc, hreads⟩ := Store.exists_of_get hrun
    rw [h.cipher i session hsession] at hreads
    exact hwrote _ c d hc hreads
  case getAll =>
    intro i ctx paths ds t hrun
    obtain ⟨session, keys, hsession, hsub, hall⟩ := Store.exists_of_getAll hrun
    rw [h.cipher i session hsession] at hall
    exact ⟨keys, hsub, hall.imp fun key d ⟨c, hc, hreads⟩ => hwrote key c d hc hreads⟩
  case last =>
    intro i ctx stem d t hrun
    obtain ⟨session, key, c, hsession, hlast, hreads⟩ := Store.exists_of_last hrun
    rw [h.cipher i session hsession] at hreads
    have hc : w.fleet.ambient.engine.Holds key c := Contents.holds_of_last hlast
    exact ⟨key, c, hlast, hwrote key c d hc hreads⟩
  case documents =>
    intro i ctx parent window ds t hrun hdata d hd
    obtain ⟨session, key, c, hsession, hc, hreads⟩ := Store.exists_of_documents hdata hrun d hd
    rw [h.cipher i session hsession] at hreads
    exact ⟨key, c, hc, hwrote key c d hc hreads⟩
  case next =>
    intro i j ctx l d v hl hdata hrun
    obtain ⟨session, e, hsession, he, hreads⟩ := Listing.serves_of_next hdata hrun
    rw [h.cipher i session hsession] at hreads
    exact ⟨e, he, wrote_of_reads ha hregular htimes (h.unforged_of_offers hl hdata he) hreads⟩

/-- Closed stores over an engine without ciphertexts under the cipher; nothing was written
yet.  The readings of the clock are proper, so that every time is stored as it was read. -/
structure IsStart (a : Aead) (w : Watch) : Prop where
  closed : ∀ i, (w.fleet.stores i).session = none
  listings : ∀ j, w.listings j = none
  log : w.log = []
  held : ∀ key c, w.fleet.ambient.engine.Holds key c → w.Unforged a c
  clock : w.fleet.ambient.clock.IsProper

section Start

variable {a : Aead} {start : Watch}

/-- The start of a watch is sound. -/
theorem IsStart.sound (h : start.IsStart a) : start.Sound a := by
  refine ⟨?_, h.held, ?_, h.clock⟩
  · intro i session hsession
    rw [h.closed i] at hsession
    exact absurd hsession (by simp)
  · intro j l hl
    rw [h.listings j] at hl
    exact absurd hl (by simp)

/-- The start of a watch has proper times. -/
theorem IsStart.hasProperTimes (h : start.IsStart a) : start.HasProperTimes := by
  intro x hx
  rw [h.log] at hx
  exact absurd hx List.not_mem_nil

end Start

/-- At every moment of every run, whatever the engine is replaced by, the stores return only
documents that were written before at their keys. -/
theorem isGenuine_of_run (k : Key) {start w : Watch} (hstart : start.IsStart k.cipher)
    (hrun : Relation.ReflTransGen (Move k.cipher) start w) (hregular : w.IsRegular) :
    w.IsGenuine := by
  have ha := k.lawful_cipher
  obtain ⟨hsound, htimes⟩ := invariants_of_run ha hstart.sound hstart.hasProperTimes hrun
  exact isGenuine_of_sound ha hsound hregular (htimes hregular)

/-- A value that the engine moves to another key is not returned there. -/
theorem isGenuine_of_moved_value :
    let a := (Key.uniform 7).cipher
    let start : Watch := ⟨⟨fun _ => .new .standard,
      { engine := default, clock := .standard, entropy := ⟨UInt8.ofNat, 0⟩ }⟩, fun _ => none, []⟩
    let created := (start.command a 0 (.openStore .background)).command a 0
      (.create .background "a" [])
    start.IsStart a ∧ ∃ c, created.fleet.ambient.engine.Holds "/a" c ∧
      let engine := { created.fleet.ambient.engine with
        contents := created.fleet.ambient.engine.contents.put "/b" c }
      let w := { created with
        fleet := { created.fleet with ambient := { created.fleet.ambient with engine } } }
      Relation.ReflTransGen (Move a) start w ∧ w.IsRegular ∧ w.IsGenuine ∧
        ∀ d t, Store.get .background "b" (w.fleet.scene 0) ≠ .ok (some d) t := by
  intro a start created
  have hstart : start.IsStart a := by
    refine ⟨fun _ => rfl, fun _ => rfl, rfl, ?_, Clock.isProper_ticking _⟩
    intro key c hc
    exact absurd hc List.not_mem_nil
  have hlog : created.log.map (fun x => (x.record.path, x.record.fields.isEmpty)) =
      [("/a", true)] := by
    unfold created start a
    decide +kernel
  have hvalue : (created.fleet.ambient.engine.contents.value? "/a").isSome := by
    unfold created start a
    decide +kernel
  obtain ⟨c, hc⟩ := Option.isSome_iff_exists.1 hvalue
  have hc : created.fleet.ambient.engine.Holds "/a" c := Contents.holds_of_value? hc
  have hopened : Move a start (start.command a 0 (.openStore .background)) := .command start 0 _
  have hcreated : Relation.ReflTransGen (Move a) start created :=
    (Relation.ReflTransGen.single hopened).tail (.command _ 0 _)
  obtain ⟨x, hx, hrecord⟩ := List.map_eq_singleton_iff.1 hlog
  injection hrecord with hpath hfields
  refine ⟨hstart, c, hc, ?_⟩
  intro engine w
  have hunforged : ∀ key c', engine.Holds key c' → created.Unforged a c' := by
    intro key c' hc'
    have hsound := (invariants_of_run (Key.uniform 7).lawful_cipher hstart.sound
      hstart.hasProperTimes hcreated).1
    rcases Contents.holds_put hc' with ⟨-, rfl⟩ | hold
    · exact hsound.held "/a" _ hc
    · exact hsound.held key c' hold
  have hrun : Relation.ReflTransGen (Move a) start w :=
    hcreated.tail (.replace created engine hunforged)
  have hregular : w.IsRegular := by
    have hlog : w.log = [x] := hx
    refine ⟨?_, ?_⟩
    · rw [hlog]
      exact List.nodup_singleton _
    · rw [hlog]
      intro y hy
      rw [List.mem_singleton.1 hy, List.isEmpty_iff.1 hfields]
      exact ⟨⟨List.Pairwise.nil, trivial⟩, by decide⟩
  have hgenuine := isGenuine_of_run (Key.uniform 7) hstart hrun hregular
  refine ⟨hrun, hregular, hgenuine, ?_⟩
  intro d t hget
  obtain ⟨y, hy, hsame, -⟩ := hgenuine.get 0 .background "b" d t hget
  have hy : y ∈ [x] := by
    rw [← hx]
    exact hy
  rw [List.mem_singleton.1 hy, hpath] at hsame
  exact absurd hsame (by decide)

end Watch

end Strongbox
