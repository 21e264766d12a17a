import Mathlib.Logic.Relation
import Strongbox.Proofs.Store.Window

/-!
# The way of a listing

A step of a listing goes the way to the next document in strides: it reads a page where its
buffer is empty, and passes over an entry.  The way is determined by what the engine holds, and
a step that fails on it stands where it has come to.  A step that meets no failure goes to the
end of the way, and what it then does depends on the listing alone.
-/

set_option autoImplicit false

namespace Strongbox

/-! ## Looks at an engine -/

namespace Engine

/-- The same contents, and no failures where there were none. -/
structure Bears (e f : Engine) : Prop where
  contents : f.contents = e.contents
  isQuiet : e.IsQuiet → f.IsQuiet

/-- An engine bears itself. -/
theorem Bears.refl (e : Engine) : e.Bears e := ⟨rfl, fun h => h⟩

/-- A look at the contents, where `x` is to be seen, shows that or fails; without faults it fails
only where `x` is a failure. -/
inductive Looks {α : Type} (e : Engine) (x : Except StorageError α) :
    EStateM.Result StorageError Engine α → Prop where
  | answer {a : α} {f : Engine} (hx : x = .ok a) (hf : e.Bears f) : Looks e x (.ok a f)
  | failure {error : StorageError} {f : Engine} (hx : e.IsQuiet → x = .error error)
      (hf : e.Bears f) : Looks e x (.error error f)

variable {α β : Type}

/-- An inspection shows the contents or fails, and without faults it fails as they do. -/
theorem looks_inspect (operation : Operation) (key : String)
    (f : Contents → Except StorageError α) (e : Engine) :
    Looks e (f e.contents) ((do Engine.consult operation key; inspect f) e) := by
  by_cases hquiet : e.IsQuiet
  · rw [Call.bind_ok (hquiet.consult operation key)]
    unfold inspect
    rw [if_pos hquiet.isReachable]
    cases hf : f e.contents with
    | ok a => exact .answer rfl (Bears.refl e)
    | error error => exact .failure (fun _ => rfl) (Bears.refl e)
  · obtain ⟨face, ⟨a, contents, ⟨ha, hcontents⟩, hrun⟩ | ⟨error, hrun⟩⟩ :=
      inspect_outcome operation key f e
    · rw [hrun]
      exact .answer ha ⟨hcontents, fun h => absurd h hquiet⟩
    · rw [hrun]
      exact .failure (fun h => absurd h hquiet) ⟨rfl, fun h => absurd h hquiet⟩

/-- A look whose answer is mapped shows the mapped contents. -/
theorem Looks.map {e : Engine} {x : Except StorageError α} {call : EngineCall α}
    (h : Looks e x (call e)) (g : α → β) :
    Looks e (x.map g) ((do let a ← call; pure (g a)) e) := by
  generalize hrun : call e = r at h
  cases h with
  | answer hx hf =>
    rw [Call.bind_ok hrun]
    exact .answer (by rw [hx]; rfl) hf
  | failure hx hf =>
    rw [Call.bind_error hrun]
    exact .failure (fun hquiet => by rw [hx hquiet]; rfl) hf

/-- A scan looks at the contents. -/
theorem looks_scan (stem : String) (after : Option String) (limit : Nat) (e : Engine) :
    Looks e (e.contents.scan stem after limit) (scan stem after limit e) :=
  looks_inspect .scan stem (·.scan stem after limit) e

/-- Keys are seen in the same way, whether or not the engine has a call for them. -/
theorem looks_scanKeys (stem : String) (after : Option String) (limit : Nat) (e : Engine) :
    Looks e (e.contents.scanKeys stem after limit) (scanKeys stem after limit e) := by
  unfold scanKeys byFace
  split
  · exact (looks_scan stem after limit e).map _
  · exact looks_inspect .scanKeys stem (·.scanKeys stem after limit) e

end Engine

/-- The same store over an engine with the same contents, without failures where there were
none. -/
structure Scene.Bears (s t : Scene) : Prop where
  store : t.store = s.store
  engine : s.ambient.engine.Bears t.ambient.engine

/-- A scene bears itself. -/
theorem Scene.Bears.refl (s : Scene) : s.Bears s := ⟨rfl, Engine.Bears.refl _⟩

namespace Listing

/-! ## Reading a page -/

/-- The failure of the contents to show the next page, if they are damaged there. -/
def fault? (l : Listing) (c : Contents) : Option StorageError :=
  match c.scan l.range l.after l.pageSize with
  | .ok _ => none
  | .error e => some e

/-- What reading a page comes to: the next page, or a failure, which without faults is the one of
the contents. -/
inductive ReadsPage (l : Listing) (s : Scene) :
    EStateM.Result StoreError Scene (List Entry) → Prop where
  | page {t : Scene} (hfault : l.fault? s.ambient.engine.contents = none) (ht : s.Bears t) :
      ReadsPage l s (.ok (l.page s.ambient.engine.contents) t)
  | failure {cause : StorageError} {t : Scene}
      (hfault : s.ambient.engine.IsQuiet →
        l.fault? s.ambient.engine.contents = some cause) (ht : s.Bears t) :
      ReadsPage l s (.error (.storage cause) t)

/-- A look at the contents through the barrier reads a page. -/
theorem readsPage_of_looks {l : Listing} {s : Scene} (call : EngineCall (List Entry))
    (hcall : readPage l = StoreCall.onBarrier l.range (Barrier.onEngine call))
    (h : Engine.Looks s.ambient.engine
      ((s.ambient.engine.contents.scan l.range l.after l.pageSize).map l.view)
      (call s.ambient.engine)) : ReadsPage l s (readPage l s) := by
  rw [hcall]
  generalize hrun : call s.ambient.engine = r at h
  cases h with
  | @answer es f hx hf =>
    rw [StoreCall.onBarrier_ok (Barrier.onEngine_ok hrun)]
    cases hscan : s.ambient.engine.contents.scan l.range l.after l.pageSize with
    | error error =>
      rw [hscan] at hx
      exact absurd hx (by simp [Except.map])
    | ok page =>
      rw [hscan] at hx
      injection hx with hes
      have hpage : es = l.page s.ambient.engine.contents := by
        rw [← hes, Contents.scan_eq_ok hscan]
        rfl
      rw [hpage]
      exact .page (by simp [fault?, hscan]) ⟨rfl, hf⟩
  | @failure error f hx hf =>
    rw [StoreCall.onBarrier_error (Barrier.onEngine_error hrun)]
    refine .failure ?_ ⟨rfl, hf⟩
    intro hquiet
    have hx := hx hquiet
    cases hscan : s.ambient.engine.contents.scan l.range l.after l.pageSize with
    | error error' =>
      rw [hscan] at hx
      injection hx with hsame
      simp [fault?, hscan, hsame]
    | ok page =>
      rw [hscan] at hx
      exact absurd hx (by simp [Except.map])

/-- Mapping the answer of an engine call may be done below the barrier. -/
theorem onEngine_map {α β : Type} (call : EngineCall α) (g : α → β) :
    (do let a ← Barrier.onEngine call; pure (g a)) =
      Barrier.onEngine (do let a ← call; pure (g a)) := by
  funext s
  cases hrun : call s.engine with
  | ok a e =>
    have hmap : (do let a ← call; pure (g a)) s.engine = .ok (g a) e := Call.bind_ok hrun
    rw [Call.bind_ok (Barrier.onEngine_ok hrun), Barrier.onEngine_ok hmap]
    rfl
  | error error e =>
    have hmap : (do let a ← call; pure (g a)) s.engine = .error error e := Call.bind_error hrun
    rw [Call.bind_error (Barrier.onEngine_error hrun), Barrier.onEngine_error hmap]

/-- Reading a page comes to the page of the contents or to a failure. -/
theorem readsPage (l : Listing) (s : Scene) : ReadsPage l s (readPage l s) := by
  cases hpaths : l.pathsOnly with
  | false =>
    apply readsPage_of_looks (Engine.scan l.range l.after l.pageSize)
    · unfold readPage
      rw [hpaths]
      rfl
    · have hview : l.view = id := by
        funext es
        simp [view, hpaths]
      have hlooks := Engine.looks_scan l.range l.after l.pageSize s.ambient.engine
      rw [hview]
      simpa [Except.map_id] using hlooks
  | true =>
    have hview : l.view = fun es => (es.map (·.1)).map fun key => (key, []) := by
      funext es
      simp [view, hpaths]
    apply readsPage_of_looks (do
      let keys ← Engine.scanKeys l.range l.after l.pageSize
      pure (keys.map fun key => (key, [])))
    · unfold readPage
      rw [hpaths, if_pos rfl, ← onEngine_map]
      rfl
    · have hlooks := (Engine.looks_scanKeys l.range l.after l.pageSize s.ambient.engine).map
        fun keys => keys.map fun key => ((key, []) : Entry)
      rw [hview]
      unfold Contents.scanKeys at hlooks
      cases hscan : s.ambient.engine.contents.scan l.range l.after l.pageSize with
      | ok es =>
        rw [hscan] at hlooks
        exact hlooks
      | error error =>
        rw [hscan] at hlooks
        exact hlooks

/-! ## Strides -/

/-- One stride on the way to the next document. -/
inductive Strides (c : Contents) (l : Listing) : Listing → Prop where
  | read (hbuffer : l.buffer = []) (hmore : l.exhausted = false) (hfault : l.fault? c = none) :
      Strides c l (addPage (l.page c) l)
  | pass {e : Entry} {rest : List Entry} {skip : Nat} (hbuffer : l.buffer = e :: rest)
      (hskip : l.skip = skip + 1) : Strides c l { l with buffer := rest, skip }

/-- There are no strides left: the listing is at its end, or damage is in its way, or it has the
next document in front. -/
def IsThere (c : Contents) (l : Listing) : Prop :=
  match l.buffer with
  | [] => l.exhausted = true ∨ (l.fault? c).isSome = true
  | _ :: _ => l.skip = 0

/-- What a listing without strides left shows, and how it then stands. -/
def give (a : Aead) (c : Contents) (l : Listing) :
    Except StoreError (Option Document) × Listing :=
  match l.buffer with
  | [] =>
    if l.exhausted then (.ok none, l)
    else
      match l.fault? c with
      | some cause => (.error (.storage cause), l)
      | none => (.ok none, l)
  | e :: rest =>
    match l.read a e with
    | .ok d => (.ok (some d), { l with buffer := rest, yielded := l.yielded + 1 })
    | .error error => (.error error, l)

/-- The way from one listing to another. -/
def Way (c : Contents) : Listing → Listing → Prop := Relation.ReflTransGen (Strides c)

section Strides

variable {c : Contents} {l m n : Listing}

/-- A listing makes one stride at most. -/
theorem Strides.unique (hm : Strides c l m) (hn : Strides c l n) : m = n := by
  cases hm with
  | read hbuffer hmore hfault =>
    cases hn with
    | read _ _ _ => rfl
    | pass hbuffer' _ => simp [hbuffer] at hbuffer'
  | pass hbuffer hskip =>
    cases hn with
    | read hbuffer' _ _ => simp [hbuffer] at hbuffer'
    | pass hbuffer' hskip' =>
      rw [hbuffer] at hbuffer'
      obtain ⟨-, rfl⟩ := List.cons.inj hbuffer'
      have hsame : _ = _ := Nat.succ.inj (hskip.symm.trans hskip')
      rw [hsame]

/-- A stride keeps the listing's range and settings. -/
theorem Strides.follows (h : Strides c l m) : l.Follows m := by
  cases h with
  | read _ _ _ => exact ⟨rfl, rfl, rfl, rfl, rfl, rfl⟩
  | pass _ _ => exact ⟨rfl, rfl, rfl, rfl, rfl, rfl⟩

/-- A stride hands out nothing. -/
theorem Strides.yielded_eq (h : Strides c l m) : m.yielded = l.yielded := by
  cases h <;> rfl

/-- At the end of its way a listing makes no stride. -/
theorem IsThere.not_strides (h : l.IsThere c) : ¬ Strides c l m := by
  intro hstride
  unfold IsThere at h
  cases hstride with
  | read hbuffer hmore hfault => simp [hbuffer, hmore, hfault] at h
  | pass hbuffer hskip => simp [hbuffer, hskip] at h

/-- The whole way keeps the listing's range and settings. -/
theorem Way.follows (h : Way c l m) : l.Follows m := by
  induction h with
  | refl => exact Follows.refl l
  | tail _ hstride ih => exact ih.trans hstride.follows

/-- Nothing is handed out on the way. -/
theorem Way.yielded_eq (h : Way c l m) : m.yielded = l.yielded := by
  induction h with
  | refl => rfl
  | tail _ hstride ih => exact hstride.yielded_eq.trans ih

/-- A listing is complete on its way exactly where it was before. -/
theorem Way.isComplete_eq (h : Way c l m) : m.isComplete = l.isComplete := by
  unfold isComplete
  rw [h.yielded_eq, h.follows.limit]

/-- From a place on the way to its end, the way goes on to that end. -/
theorem Way.rest (hm : Way c l m) (hn : Way c l n) (hthere : n.IsThere c) : Way c m n := by
  induction hm with
  | refl => exact hn
  | tail _ hstride ih =>
    rcases Relation.ReflTransGen.cases_head ih with hsame | ⟨k, hk, hrest⟩
    · -- There is no stride from the end of the way.
      rw [hsame] at hstride
      exact absurd hstride hthere.not_strides
    · rw [hstride.unique hk]
      exact hrest

/-- The way has one end. -/
theorem Way.end_unique (hm : Way c l m) (hn : Way c l n) (hm' : m.IsThere c)
    (hn' : n.IsThere c) : m = n := by
  rcases Relation.ReflTransGen.cases_head (hm.rest hn hn') with hsame | ⟨k, hk, -⟩
  · exact hsame
  · exact absurd hk hm'.not_strides

end Strides

/-! ## The way of a step -/

/-- A step goes a part of the way and fails, which it does not do without faults, or it goes the
whole way and shows what is there. -/
inductive Walks (a : Aead) (w : Walk) (r : EStateM.Result StoreError Walk (Option Document)) :
    Prop where
  | arrives {m : Listing} (hway : Way w.scene.ambient.engine.contents w.listing m)
      (hthere : m.IsThere w.scene.ambient.engine.contents)
      (hgive : (Call.answer r, (Call.after r).listing) =
        m.give a w.scene.ambient.engine.contents)
  | fails {cause : StorageError} (hfaulty : ¬ w.scene.ambient.engine.IsQuiet)
      (hway : Way w.scene.ambient.engine.contents w.listing (Call.after r).listing)
      (hanswer : Call.answer r = .error (.storage cause))

/-- Where a listing has made sure of its next entry, it has made at most one stride. -/
inductive Refills (w : Walk) : EStateM.Result StoreError Walk Unit → Prop where
  | ready {v : Walk} (hway : Way w.scene.ambient.engine.contents w.listing v.listing)
      (hscene : w.scene.Bears v.scene) (hskip : v.listing.skip = w.listing.skip)
      (hready : v.listing.buffer = [] → v.listing.exhausted = true) : Refills w (.ok () v)
  | failure {cause : StorageError} {s : Scene} (hbuffer : w.listing.buffer = [])
      (hmore : w.listing.exhausted = false)
      (hfault : w.scene.ambient.engine.IsQuiet →
        w.listing.fault? w.scene.ambient.engine.contents = some cause) :
      Refills w (.error (.storage cause) { w with scene := s })

/-- Making sure of the next entry makes one stride, or none, or fails. -/
theorem refills (w : Walk) (hsize : 0 < w.listing.pageSize) : Refills w (refill w) := by
  unfold refill
  rw [Call.bind_ok (current_eq w)]
  split_ifs with hempty
  · simp only [Bool.and_eq_true, List.isEmpty_iff, Bool.not_eq_true'] at hempty
    obtain ⟨hbuffer, hmore⟩ := hempty
    have hreads := readsPage w.listing w.scene
    generalize hrun : readPage w.listing w.scene = r at hreads
    cases hreads with
    | @page t hfault ht =>
      rw [Call.bind_ok (onStore_ok hrun)]
      refine .ready (.single (.read hbuffer hmore hfault)) ht rfl ?_
      intro hnil
      have hpage : w.listing.page w.scene.ambient.engine.contents = [] :=
        (List.append_eq_nil_iff.1 hnil).2
      simp [addPage, hpage, hsize]
    | @failure cause t hfault ht =>
      rw [Call.bind_error (onStore_error hrun)]
      exact .failure hbuffer hmore hfault
  · simp only [Bool.and_eq_true, List.isEmpty_iff, Bool.not_eq_true', not_and,
      Bool.not_eq_false] at hempty
    exact .ready .refl (Scene.Bears.refl w.scene) rfl hempty

section Walks

variable {a : Aead} {w v : Walk} {r : EStateM.Result StoreError Walk (Option Document)}

/-- A walk from a place on the way is one from the beginning. -/
theorem Walks.of_way (hscene : w.scene.Bears v.scene)
    (hway : Way w.scene.ambient.engine.contents w.listing v.listing) (h : Walks a v r) :
    Walks a w r := by
  have hcontents := hscene.engine.contents
  cases h with
  | arrives hrest hthere hgive =>
    rw [hcontents] at hrest hthere hgive
    exact .arrives (hway.trans hrest) hthere hgive
  | fails hfaulty hrest hanswer =>
    rw [hcontents] at hrest
    exact .fails (fun hquiet => hfaulty (hscene.engine.isQuiet hquiet)) (hway.trans hrest) hanswer

/-- A page that cannot be read ends the walk. -/
theorem walks_of_failure {cause : StorageError} {s : Scene} (hbuffer : w.listing.buffer = [])
    (hmore : w.listing.exhausted = false)
    (hfault : w.scene.ambient.engine.IsQuiet →
      w.listing.fault? w.scene.ambient.engine.contents = some cause) :
    Walks a w (.error (.storage cause) { w with scene := s }) := by
  by_cases hquiet : w.scene.ambient.engine.IsQuiet
  · have hfault := hfault hquiet
    refine .arrives .refl ?_ ?_
    · simp [IsThere, hbuffer, hfault]
    · simp [give, hbuffer, hmore, hfault, Call.answer, Call.after]
  · exact .fails hquiet .refl rfl

/-- At its end a listing walks nowhere. -/
theorem walks_of_end (hbuffer : w.listing.buffer = []) (hend : w.listing.exhausted = true) :
    Walks a w (.ok none w) := by
  refine .arrives .refl ?_ ?_
  · simp [IsThere, hbuffer, hend]
  · simp [give, hbuffer, hend, Call.answer, Call.after]

/-- An entry that is in front is handed out, or it stays there. -/
theorem walks_hand {e : Entry} {rest : List Entry} (hbuffer : w.listing.buffer = e :: rest)
    (hskip : w.listing.skip = 0) :
    Walks a w
      ((do let d ← hand a e; pure (some d))
        { w with listing := { w.listing with buffer := rest } }) := by
  have hthere : w.listing.IsThere w.scene.ambient.engine.contents := by
    simp [IsThere, hbuffer, hskip]
  rcases hand_cases a e { w with listing := { w.listing with buffer := rest } } with
    ⟨d, hread, hhand⟩ | ⟨error, t, hread, -, hhand⟩
  · have hread : w.listing.read a e = .ok d := hread
    rw [Call.bind_ok hhand]
    refine .arrives .refl hthere ?_
    simp [give, hbuffer, hread, Call.answer, Call.after, pure, EStateM.pure]
  · have hread : w.listing.read a e = .error error := hread
    have hsame : ({ w.listing with buffer := e :: rest } : Listing) = w.listing := by
      rw [← hbuffer]
    rw [Call.bind_error hhand]
    refine .arrives .refl hthere ?_
    simp [give, hbuffer, hread, Call.answer, Call.after, hsame]

/-- What takes the next entry and goes on with it walks as it does with the entry in front. -/
theorem walks_take {f : Option Entry → Step (Option Document)} (hsize : 0 < w.listing.pageSize)
    (hnone : f none = pure none)
    (hsome : ∀ (v : Walk) (e : Entry) (rest : List Entry), v.listing.skip = w.listing.skip →
      0 < v.listing.pageSize → v.listing.buffer = e :: rest →
      Walks a v (f (some e) { v with listing := { v.listing with buffer := rest } })) :
    Walks a w ((take >>= f) w) := by
  have hrefills := refills w hsize
  generalize hrun : refill w = r at hrefills
  cases hrefills with
  | failure hbuffer hmore hfault =>
    have htake : take w = _ := Call.bind_error hrun
    rw [Call.bind_error htake]
    exact walks_of_failure hbuffer hmore hfault
  | @ready v hway hscene hskip hready =>
    rw [Call.bind_ok (take_of_refill hrun)]
    refine Walks.of_way hscene hway ?_
    cases hbuffer : v.listing.buffer with
    | nil =>
      have hlisting : ({ v.listing with buffer := [] } : Listing) = v.listing := by
        rw [← hbuffer]
      simp only [List.head?_nil, List.tail_nil, hlisting, hnone]
      exact walks_of_end hbuffer (hready hbuffer)
    | cons e rest => exact hsome v e rest hskip (hway.follows.pageSize ▸ hsize) hbuffer

/-- Every step walks its way, by induction on the entries to pass over. -/
theorem walks_nextFrom {skip : Nat} (hskip : w.listing.skip = skip)
    (hsize : 0 < w.listing.pageSize) : Walks a w (nextFrom a skip w) := by
  induction skip generalizing w with
  | zero =>
    unfold nextFrom
    refine walks_take hsize rfl ?_
    intro v e rest hsame _ hbuffer
    exact walks_hand hbuffer (hsame.trans hskip)
  | succ skip ih =>
    unfold nextFrom
    refine walks_take hsize rfl ?_
    intro v e rest hsame hpageSize hbuffer
    let u : Walk := ⟨{ v.listing with buffer := rest, skip }, v.scene⟩
    have hscene : v.scene.Bears u.scene := Scene.Bears.refl v.scene
    have hpass : Way v.scene.ambient.engine.contents v.listing u.listing :=
      .single (.pass hbuffer (hsame.trans hskip))
    have hnext : Walks a u (nextFrom a skip u) := ih rfl hpageSize
    exact Walks.of_way hscene hpass hnext

end Walks

end Listing

end Strongbox
