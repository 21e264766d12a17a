import Strongbox.Proofs.Store.Reading

/-!
# What listings hand out

A listing hands out entries that it has read before or that the engine holds, and a step of
it keeps the store and the contents of the engine.
-/

set_option autoImplicit false

namespace Strongbox

open Call (Respects)

namespace Listing

/-- A listing of the same range, with the same settings. -/
structure Follows (l m : Listing) : Prop where
  generation : m.generation = l.generation
  range : m.range = l.range
  limit : m.limit = l.limit
  pathsOnly : m.pathsOnly = l.pathsOnly
  pageSize : m.pageSize = l.pageSize
  released : m.released = l.released

namespace Follows

/-- A listing follows itself. -/
theorem refl (l : Listing) : Follows l l := ⟨rfl, rfl, rfl, rfl, rfl, rfl⟩

/-- Following is transitive. -/
theorem trans {l m n : Listing} (hlm : Follows l m) (hmn : Follows m n) : Follows l n :=
  ⟨hmn.generation.trans hlm.generation, hmn.range.trans hlm.range, hmn.limit.trans hlm.limit,
    hmn.pathsOnly.trans hlm.pathsOnly, hmn.pageSize.trans hlm.pageSize,
    hmn.released.trans hlm.released⟩

end Follows

end Listing

/-- An entry that the listing may come upon: one that it has read, or one that the engine
holds. -/
def Walk.Offers (w : Walk) (e : Entry) : Prop :=
  e ∈ w.listing.buffer ∨ w.scene.ambient.engine.Holds e.1 e.2

/-- The document of such an entry, under the cipher of the store. -/
def Walk.Serves (w : Walk) (d : Document) : Prop :=
  ∃ session e, w.scene.store.session = some session ∧ w.Offers e ∧ Entry.Reads session.cipher e d

/-- A step of a listing: the store only reads, the listing keeps its range and its settings, and
with data it has read nothing but what was offered. -/
structure Walk.Keeps (w v : Walk) : Prop where
  leads : w.scene.Leads Effect.Reads v.scene
  listing : w.listing.Follows v.listing
  buffer : w.listing.pathsOnly = false → ∀ e ∈ v.listing.buffer, w.Offers e

namespace Walk.Keeps

/-- A walk keeps itself. -/
theorem refl (w : Walk) : Keeps w w :=
  ⟨Scene.Leads.refl w.scene, .refl w.listing, fun _ _ he => .inl he⟩

/-- A walk that is kept keeps its scene. -/
theorem scene {w v : Walk} (h : w.Keeps v) : w.scene.Keeps v.scene := h.leads.keeps

/-- A walk that is kept has the same kind of documents. -/
theorem pathsOnly {w v : Walk} (h : w.Keeps v) : v.listing.pathsOnly = w.listing.pathsOnly :=
  h.listing.pathsOnly

/-- The scene of a listing after a call that only reads. -/
theorem of_leads {w : Walk} {s : Scene} (h : w.scene.Leads Effect.Reads s) :
    w.Keeps { w with scene := s } :=
  ⟨h, .refl w.listing, fun _ _ he => .inl he⟩

/-- What is offered after a kept walk was offered before. -/
theorem offers {w v : Walk} (h : w.Keeps v) (hdata : w.listing.pathsOnly = false) {e : Entry}
    (he : v.Offers e) : w.Offers e := by
  rcases he with he | he
  · exact h.buffer hdata e he
  · exact .inr (h.scene.holds he)

/-- Keeping a walk is transitive. -/
theorem trans (u v w : Walk) (huv : Keeps u v) (hvw : Keeps v w) : Keeps u w := by
  refine ⟨Scene.Leads.trans _ _ _ huv.leads hvw.leads, huv.listing.trans hvw.listing, ?_⟩
  intro hdata e he
  apply huv.offers hdata
  apply hvw.buffer
  · rw [huv.pathsOnly]
    exact hdata
  · exact he

/-- A kept walk may pass over entries. -/
theorem pass {w v : Walk} (h : w.Keeps v) (skip : Nat) :
    w.Keeps { v with listing := { v.listing with skip } } :=
  ⟨h.leads, h.listing.trans ⟨rfl, rfl, rfl, rfl, rfl, rfl⟩, h.buffer⟩

/-- What is served after a kept walk was served before. -/
theorem serves {w v : Walk} (h : w.Keeps v) (hdata : w.listing.pathsOnly = false)
    {d : Document} (hd : v.Serves d) : w.Serves d := by
  obtain ⟨session, e, hsession, he, hreads⟩ := hd
  rw [h.scene.store] at hsession
  exact ⟨session, e, hsession, h.offers hdata he, hreads⟩

end Walk.Keeps

namespace Listing

/-- Reading the listing changes nothing. -/
theorem current_eq (w : Walk) : current w = .ok w.listing w := rfl

section OnStore

variable {α : Type} {call : StoreCall α} {w : Walk} {s : Scene}

/-- A store call that succeeds changes the walk's scene only. -/
theorem onStore_ok {x : α} (h : call w.scene = .ok x s) :
    onStore call w = .ok x { w with scene := s } := by
  unfold onStore
  rw [h]

/-- A store call that fails changes the walk's scene only. -/
theorem onStore_error {e : StoreError} (h : call w.scene = .error e s) :
    onStore call w = .error e { w with scene := s } := by
  unfold onStore
  rw [h]

end OnStore

/-- A store call that only reads keeps the walk. -/
theorem keeps_onStore {α : Type} {call : StoreCall α}
    (h : Respects (Scene.Leads Effect.Reads) call) : Respects Walk.Keeps (onStore call) := by
  intro w
  unfold onStore
  cases hrun : call w.scene with
  | ok x s => exact .of_leads (h.ok hrun)
  | error e s => exact .of_leads (h.error hrun)

/-- Reading a page only listens to the engine. -/
theorem leads_readPage {P : Effect → Prop} [Effect.AllowsListening P] (l : Listing) :
    Respects (Scene.Leads P) (readPage l) := by
  refine StoreCall.leads_onBarrier ?_
  split
  · exact Barrier.leads_bind (Barrier.leads_scanKeys _ _ _) fun _ => Barrier.leads_pure _
  · exact Barrier.leads_scan _ _ _

/-- The page of a listing with data holds entries of the engine. -/
theorem holds_of_readPage {l : Listing} {s t : Scene} {page : List Entry}
    (hdata : l.pathsOnly = false) (h : readPage l s = .ok page t) :
    ∀ e ∈ page, s.ambient.engine.Holds e.1 e.2 := by
  unfold readPage at h
  rw [hdata, if_neg Bool.false_ne_true] at h
  have hscan := StoreCall.onBarrier_eq_ok h
  cases hrun : Engine.scan l.range l.after l.pageSize s.ambient.engine with
  | error error e =>
    have hfail := Barrier.onEngine_error hrun
    unfold Barrier.scan at hscan
    rw [hfail] at hscan
    exact absurd hscan (by simp)
  | ok es e =>
    have hok := Barrier.onEngine_ok hrun
    unfold Barrier.scan at hscan
    rw [hok] at hscan
    injection hscan with hscan
    rw [← hscan]
    exact Engine.holds_of_scan hrun

/-- A page that is read into the buffer was offered. -/
theorem keeps_refill : Respects Walk.Keeps refill := by
  intro w
  unfold refill
  rw [Call.bind_ok (current_eq w)]
  split
  · cases hpage : readPage w.listing w.scene with
    | error e s =>
      rw [Call.bind_error (onStore_error hpage)]
      exact .of_leads ((leads_readPage w.listing).error hpage)
    | ok page s =>
      rw [Call.bind_ok (onStore_ok hpage)]
      refine ⟨(leads_readPage w.listing).ok hpage, ⟨rfl, rfl, rfl, rfl, rfl, rfl⟩, ?_⟩
      intro hdata e he
      rcases List.mem_append.1 he with he | he
      · exact .inl he
      · exact .inr (holds_of_readPage hdata hpage e he)
  · exact Walk.Keeps.refl w

/-- The next entry was offered, and those that stay in the buffer were, too. -/
theorem keeps_take : Respects Walk.Keeps take := by
  refine Respects.bind Walk.Keeps.trans keeps_refill fun _ => ?_
  intro w
  rw [Call.bind_ok (current_eq w)]
  cases hbuffer : w.listing.buffer with
  | nil => exact Walk.Keeps.refl w
  | cons e rest =>
    refine ⟨Scene.Leads.refl w.scene, ⟨rfl, rfl, rfl, rfl, rfl, rfl⟩, ?_⟩
    intro _ f hf
    refine .inl ?_
    rw [hbuffer]
    exact List.mem_cons_of_mem e hf

/-- The entry taken was offered. -/
theorem offers_of_take {w v : Walk} {e : Entry} (hdata : w.listing.pathsOnly = false)
    (h : take w = .ok (some e) v) : w.Offers e := by
  obtain ⟨_, u, hrefill, hrest⟩ := Call.exists_of_bind_ok h
  have hu := keeps_refill.ok hrefill
  rw [Call.bind_ok (current_eq u)] at hrest
  cases hbuffer : u.listing.buffer with
  | nil =>
    rw [hbuffer] at hrest
    injection hrest with hrest
    exact absurd hrest (by simp)
  | cons f rest =>
    rw [hbuffer] at hrest
    injection hrest with hrest
    injection hrest with hrest
    rw [← hrest]
    apply hu.buffer hdata
    rw [hbuffer]
    exact List.mem_cons_self

/-- Decoding an entry only reads. -/
theorem leads_decode (a : Aead) (e : Entry) : Respects (Scene.Leads Effect.Reads) (decode a e) :=
  StoreCall.leads_bind (StoreCall.leads_onBarrier (Barrier.leads_decrypt a e.2)) fun p =>
    StoreCall.leads_bind (StoreCall.leads_decode e.1 p) fun _ => StoreCall.leads_pure _

/-- A document that is decoded is the one its entry reads as. -/
theorem reads_of_decode {a : Aead} {e : Entry} {s t : Scene} {d : Document}
    (h : decode a e s = .ok d t) : Entry.Reads a e d := by
  obtain ⟨p, u, hdecrypt, hrest⟩ := Call.exists_of_bind_ok h
  obtain ⟨r, v, hdecode, hpure⟩ := Call.exists_of_bind_ok hrest
  injection hpure with hpure
  exact ⟨p, r, Barrier.decrypt_eq_ok (StoreCall.onBarrier_eq_ok hdecrypt),
    StoreCall.decode_eq_ok hdecode, hpure⟩

/-- An entry that cannot be read goes back to the buffer, from which it came. -/
theorem keeps_decodeOrPutBack {a : Aead} {e : Entry} {u w : Walk} (huw : u.Keeps w)
    (he : u.listing.pathsOnly = false → u.Offers e) :
    u.Keeps (Call.after (decodeOrPutBack a e w)) := by
  have hscene := leads_decode a e w.scene
  unfold decodeOrPutBack onStore
  cases hrun : decode a e w.scene with
  | ok d s =>
    rw [hrun] at hscene
    exact ⟨Scene.Leads.trans _ _ _ huw.leads hscene, huw.listing, huw.buffer⟩
  | error error s =>
    rw [hrun] at hscene
    refine ⟨Scene.Leads.trans _ _ _ huw.leads hscene,
      huw.listing.trans ⟨rfl, rfl, rfl, rfl, rfl, rfl⟩, ?_⟩
    intro hdata f hf
    rcases List.mem_cons.1 hf with rfl | hf
    · exact he hdata
    · exact huw.buffer hdata f hf

/-- So is one whose entry would be put back on a failure. -/
theorem reads_of_decodeOrPutBack {a : Aead} {e : Entry} {w v : Walk} {d : Document}
    (h : decodeOrPutBack a e w = .ok d v) : Entry.Reads a e d := by
  unfold decodeOrPutBack onStore at h
  cases hrun : decode a e w.scene with
  | ok d' s =>
    rw [hrun] at h
    injection h with h
    rw [← h]
    exact reads_of_decode hrun
  | error error s =>
    rw [hrun] at h
    exact absurd h (by simp [putBack, change])

/-- Handing out an offered entry keeps the walk. -/
theorem keeps_hand {a : Aead} {e : Entry} {u w : Walk} (huw : u.Keeps w)
    (he : u.listing.pathsOnly = false → u.Offers e) : u.Keeps (Call.after (hand a e w)) := by
  have hcount : Respects Walk.Keeps (change fun l => { l with yielded := l.yielded + 1 }) :=
    fun v => ⟨Scene.Leads.refl v.scene, ⟨rfl, rfl, rfl, rfl, rfl, rfl⟩, fun _ _ hf => .inl hf⟩
  unfold hand
  rw [Call.bind_ok (current_eq w)]
  split
  · exact Walk.Keeps.trans _ _ _ huw (hcount w)
  · refine Call.after_bind (keeps_decodeOrPutBack huw he) ?_
    intro d v _ hv
    exact Walk.Keeps.trans _ _ _ hv (hcount v)

/-- A document handed out with data is the one its entry reads as. -/
theorem reads_of_hand {a : Aead} {e : Entry} {w v : Walk} {d : Document}
    (hdata : w.listing.pathsOnly = false) (h : hand a e w = .ok d v) : Entry.Reads a e d := by
  unfold hand at h
  rw [Call.bind_ok (current_eq w), hdata, if_neg Bool.false_ne_true] at h
  obtain ⟨d', u, hdecode, hrest⟩ := Call.exists_of_bind_ok h
  have hsame : d' = d := by
    injection hrest
  rw [← hsame]
  exact reads_of_decodeOrPutBack hdecode

/-- A step of a listing keeps what listings keep, and with data it hands out the document of
an entry that was offered. -/
structure StepSpec (a : Aead) (w : Walk) (r : EStateM.Result StoreError Walk (Option Document)) :
    Prop where
  keeps : w.Keeps (Call.after r)
  reads : ∀ d v, r = .ok (some d) v → w.listing.pathsOnly = false →
    ∃ e, w.Offers e ∧ Entry.Reads a e d

/-- The spec of a step may start from an earlier walk that is kept. -/
theorem StepSpec.of_keeps {a : Aead} {u w : Walk}
    {r : EStateM.Result StoreError Walk (Option Document)} (huw : u.Keeps w)
    (h : StepSpec a w r) : StepSpec a u r := by
  refine ⟨Walk.Keeps.trans _ _ _ huw h.keeps, ?_⟩
  intro d v hr hdata
  obtain ⟨e, he, hreads⟩ := h.reads d v hr (huw.pathsOnly.trans hdata)
  exact ⟨e, huw.offers hdata he, hreads⟩

/-- A step that yields nothing meets its spec. -/
theorem stepSpec_nothing {a : Aead} {u w : Walk} (huw : u.Keeps w) :
    StepSpec a u (.ok none w) :=
  ⟨huw, fun _ _ h => absurd h (by simp)⟩

/-- A step that fails meets its spec. -/
theorem stepSpec_error {a : Aead} {u w : Walk} (huw : u.Keeps w) (e : StoreError) :
    StepSpec a u (.error e w) :=
  ⟨huw, fun _ _ h => absurd h (by simp)⟩

/-- What takes the next entry and goes on with it meets its spec if the rest does. -/
theorem stepSpec_take {a : Aead} {w : Walk} {f : Option Entry → Step (Option Document)}
    (hnone : f none = pure none)
    (hsome : ∀ (e : Entry) (v : Walk), w.Keeps v → (w.listing.pathsOnly = false → w.Offers e) →
      StepSpec a w (f (some e) v)) : StepSpec a w ((take >>= f) w) := by
  cases htake : take w with
  | error e v =>
    rw [Call.bind_error htake]
    exact stepSpec_error (keeps_take.error htake) e
  | ok x v =>
    have hv := keeps_take.ok htake
    rw [Call.bind_ok htake]
    cases x with
    | none =>
      rw [hnone]
      exact stepSpec_nothing hv
    | some e => exact hsome e v hv fun hdata => offers_of_take hdata htake

/-- Handing out an offered entry meets the spec of a step. -/
theorem stepSpec_hand {a : Aead} {e : Entry} {u w : Walk} (huw : u.Keeps w)
    (he : u.listing.pathsOnly = false → u.Offers e) :
    StepSpec a u ((hand a e >>= fun d => pure (some d)) w) := by
  have hkeeps := keeps_hand (a := a) huw he
  cases hhand : hand a e w with
  | error error v =>
    rw [hhand] at hkeeps
    rw [Call.bind_error hhand]
    exact stepSpec_error hkeeps error
  | ok d v =>
    rw [hhand] at hkeeps
    rw [Call.bind_ok hhand]
    refine ⟨hkeeps, ?_⟩
    intro d' t hr hdata
    injection hr with hd
    injection hd with hd
    rw [← hd]
    exact ⟨e, he hdata, reads_of_hand (huw.pathsOnly.trans hdata) hhand⟩

/-- Every step meets its spec, by induction on the entries left to skip. -/
theorem stepSpec_nextFrom (a : Aead) (skip : Nat) (w : Walk) :
    StepSpec a w (nextFrom a skip w) := by
  induction skip generalizing w with
  | zero => exact stepSpec_take rfl fun e v hv he => stepSpec_hand hv he
  | succ skip ih => exact stepSpec_take rfl fun e v hv _ => (ih _).of_keeps (hv.pass skip)

/-- The session of a listing is the store's, read without a change. -/
theorem session_eq_ok {l : Listing} {w v : Walk} {s : Session} (h : session l w = .ok s v) :
    w.scene.store.session = some s ∧ v = w := by
  unfold session at h
  cases hsession : w.scene.store.session with
  | none =>
    rw [hsession] at h
    exact absurd h (by simp)
  | some s' =>
    rw [hsession] at h
    dsimp only at h
    split at h
    · injection h with hs hw
      rw [hs]
      exact ⟨rfl, hw.symm⟩
    · exact absurd h (by simp)

/-- Reading the session keeps the walk. -/
theorem keeps_session (l : Listing) : Respects Walk.Keeps (session l) := by
  intro w
  unfold session
  split
  · split
    · exact Walk.Keeps.refl w
    · exact Walk.Keeps.refl w
  · exact Walk.Keeps.refl w

/-- A step keeps what listings keep. -/
theorem keeps_next (ctx : Context) : Respects Walk.Keeps (next ctx) := by
  intro w
  unfold next
  rw [Call.bind_ok (current_eq w)]
  split
  · exact Walk.Keeps.refl w
  · refine Call.after_bind (keeps_onStore (StoreCall.leads_boundary ctx) w) ?_
    intro _ v _ hv
    split
    · exact hv
    · refine Call.after_bind (Walk.Keeps.trans _ _ _ hv (keeps_session w.listing v)) ?_
      intro s u _ hu
      exact Walk.Keeps.trans _ _ _ hu (stepSpec_nextFrom s.cipher w.listing.skip u).keeps

/-- With data, a step hands out what is served. -/
theorem serves_of_next {ctx : Context} {w v : Walk} {d : Document}
    (hdata : w.listing.pathsOnly = false) (h : next ctx w = .ok (some d) v) : w.Serves d := by
  unfold next at h
  rw [Call.bind_ok (current_eq w)] at h
  split at h
  · exact absurd h Call.throw_ne_ok
  · obtain ⟨_, u, hstop, hrest⟩ := Call.exists_of_bind_ok h
    have hu := (keeps_onStore (StoreCall.leads_boundary ctx)).ok hstop
    split at hrest
    · injection hrest with hnone
      exact absurd hnone (by simp)
    · obtain ⟨s, t, hopen, hnext⟩ := Call.exists_of_bind_ok hrest
      obtain ⟨hsession, hsame⟩ := session_eq_ok hopen
      subst hsame
      obtain ⟨e, he, hreads⟩ :=
        (stepSpec_nextFrom s.cipher w.listing.skip t).reads d v hnext (hu.pathsOnly.trans hdata)
      rw [hu.scene.store] at hsession
      exact ⟨s, e, hsession, hu.offers hdata he, hreads⟩

/-- Draining keeps the walk. -/
theorem keeps_drain (ctx : Context) (fuel : Nat) (done : List Document) :
    Respects Walk.Keeps (drain ctx fuel done) := by
  induction fuel generalizing done with
  | zero => exact Respects.pure Walk.Keeps.refl _
  | succ fuel ih =>
    refine Respects.bind Walk.Keeps.trans (keeps_next ctx) fun x => ?_
    cases x with
    | none => exact Respects.pure Walk.Keeps.refl _
    | some d => exact ih (d :: done)

/-- Steps up to the end hand out what is served, after the documents in front. -/
theorem serves_of_drain {ctx : Context} {fuel : Nat} {done ds : List Document} {w v : Walk}
    (hdata : w.listing.pathsOnly = false) (h : drain ctx fuel done w = .ok (some ds) v) :
    ∀ d ∈ ds, d ∈ done ∨ w.Serves d := by
  induction fuel generalizing done w with
  | zero =>
    injection h with hds
    exact absurd hds (by simp)
  | succ fuel ih =>
    obtain ⟨x, u, hnext, hrest⟩ := Call.exists_of_bind_ok h
    have hu := (keeps_next ctx).ok hnext
    cases x with
    | none =>
      intro d hd
      injection hrest with hds
      rw [← Option.some.inj hds] at hd
      exact .inl (List.mem_reverse.1 hd)
    | some d₀ =>
      intro d hd
      rcases ih (hu.pathsOnly.trans hdata) hrest d hd with hmem | hserves
      · rcases List.mem_cons.1 hmem with rfl | hmem
        · exact .inr (serves_of_next hdata hnext)
        · exact .inl hmem
      · exact .inr (hu.serves hdata hserves)

end Listing

namespace Store

open StoreCall

/-- `list` only reads. -/
theorem leads_list (ctx : Context) (parent : String) (window : Window) :
    Respects (Scene.Leads Effect.Reads) (list ctx parent window) :=
  leads_bind (leads_boundary ctx) fun _ => leads_bind leads_openSession fun _ =>
    leads_bind (leads_tell _) fun _ s => Scene.Leads.refl s

/-- A listing starts with nothing read. -/
theorem list_eq_ok {ctx : Context} {parent : String} {window : Window} {s t : Scene} {l : Listing}
    (h : list ctx parent window s = .ok l t) :
    l.buffer = [] ∧ l.pathsOnly = window.pathsOnly := by
  obtain ⟨_, u, -, hrest⟩ := Call.exists_of_bind_ok h
  obtain ⟨session, v, -, hrest⟩ := Call.exists_of_bind_ok hrest
  obtain ⟨_, w, -, hrest⟩ := Call.exists_of_bind_ok hrest
  injection hrest with hl
  rw [← hl]
  exact ⟨rfl, rfl⟩

/-- Collecting a listing only reads. -/
theorem leads_collect (ctx : Context) (l : Listing) :
    Respects (Scene.Leads Effect.Reads) (l.run (Listing.collect ctx)) := by
  intro s
  have hkeeps := Listing.keeps_drain ctx (Listing.bound ⟨l, s⟩) []
  unfold Listing.run Listing.collect
  cases hrun : Listing.drain ctx (Listing.bound ⟨l, s⟩) [] ⟨l, s⟩ with
  | error e v => exact (hkeeps.error hrun).leads
  | ok ds v => exact (hkeeps.ok hrun).leads

/-- What is collected from a listing with data comes from its buffer or from the engine. -/
theorem serves_of_collect {ctx : Context} {l l' : Listing} {s t : Scene} {ds : List Document}
    (hdata : l.pathsOnly = false) (h : l.run (Listing.collect ctx) s = .ok (some ds, l') t) :
    ∀ d ∈ ds, Walk.Serves ⟨l, s⟩ d := by
  unfold Listing.run Listing.collect at h
  cases hrun : Listing.drain ctx (Listing.bound ⟨l, s⟩) [] ⟨l, s⟩ with
  | error e v =>
    rw [hrun] at h
    exact absurd h (by simp)
  | ok ds' v =>
    rw [hrun] at h
    injection h with h
    injection h with hds
    subst hds
    intro d hd
    rcases Listing.serves_of_drain (w := ⟨l, s⟩) hdata hrun d hd with hmem | hserves
    · exact absurd hmem List.not_mem_nil
    · exact hserves

/-- `documents` only reads. -/
theorem leads_documents (ctx : Context) (parent : String) (window : Window) :
    Respects (Scene.Leads Effect.Reads) (documents ctx parent window) :=
  leads_bind (leads_list ctx parent window) fun l =>
    leads_bind (leads_collect ctx l) fun _ => leads_pure _

/-- The documents below a parent are those of entries of the engine. -/
theorem exists_of_documents {ctx : Context} {parent : String} {window : Window} {s t : Scene}
    {ds : List Document} (hdata : window.pathsOnly = false)
    (h : documents ctx parent window s = .ok (some ds) t) :
    ∀ d ∈ ds, ∃ session key c, s.store.session = some session ∧
      s.ambient.engine.Holds key c ∧ Entry.Reads session.cipher (key, c) d := by
  obtain ⟨l, u, hlist, hrest⟩ := Call.exists_of_bind_ok h
  obtain ⟨⟨ds', l'⟩, v, hcollect, hpure⟩ := Call.exists_of_bind_ok hrest
  injection hpure with hds
  subst hds
  obtain ⟨hbuffer, hpaths⟩ := list_eq_ok hlist
  have hu := (leads_list ctx parent window).keeps.ok hlist
  intro d hd
  obtain ⟨session, e, hsession, he, hreads⟩ :=
    serves_of_collect (hpaths.trans hdata) hcollect d hd
  rw [hu.store] at hsession
  rcases he with he | he
  · rw [hbuffer] at he
    exact absurd he List.not_mem_nil
  · exact ⟨session, e.1, e.2, hsession, hu.holds he, hreads⟩

/-- `count` only reads. -/
theorem leads_count (ctx : Context) (parent stem : String) :
    Respects (Scene.Leads Effect.Reads) (count ctx parent stem) :=
  leads_bind (leads_list ctx parent { stem, pathsOnly := true }) fun l =>
    leads_bind (leads_collect ctx l) fun _ => leads_pure _

/-- The walk that collects names only reads. -/
theorem leads_collectNames (ctx : Context) (pageSize fuel : Nat) (after : Option String)
    (names : List String) :
    Respects (Scene.Leads Effect.Reads) (collectNames ctx pageSize fuel after names) := by
  induction fuel generalizing after names with
  | zero => exact leads_pure none
  | succ fuel ih =>
    refine leads_bind (leads_boundary ctx) fun _ => leads_bind
      (leads_onBarrier (Barrier.leads_scanKeys _ _ _))
      fun keys => ?_
    dsimp only
    split
    · exact leads_pure _
    · exact ih _ _

/-- `collections` only reads. -/
theorem leads_collections (ctx : Context) (parent : String) :
    Respects (Scene.Leads Effect.Reads) (collections ctx parent) := by
  refine leads_bind (leads_boundary ctx) fun _ => ?_
  split
  · exact leads_throw _
  · exact leads_bind leads_openSession fun _ =>
      leads_bind (fun s => leads_collectNames ctx _ _ none [] s) fun _ => leads_pure _

end Store

end Strongbox
