import Mathlib.Logic.Relation
import Strongbox.Proofs.Store.Generations
import Strongbox.Proofs.Store.Strides

/-!
# Steps that are tried again

A listing is visited again and again while the engine holds the same.  Some visits lapse: the
caller stops them, or the engine fails at one of the pages.  The visits that do not lapse show
what the visits of an undisturbed listing show, one by one, which is the window of the listing
up to the first record in it that cannot be read.  The main result is `Visit.resumes_of_list`.
-/

set_option autoImplicit false

namespace Strongbox

open Call (Respects)

namespace Listing

/-! ## Undisturbed steps -/

/-- An undisturbed step of a listing brings an answer and leaves a listing. -/
inductive Brings (a : Aead) (c : Contents) (l : Listing) :
    Except StoreError (Option Document) → Listing → Prop where
  | complete (h : l.isComplete = true) : Brings a c l (.ok none) l
  | there {m : Listing} (hmore : l.isComplete = false) (hway : Way c l m)
      (hthere : m.IsThere c) : Brings a c l (m.give a c).1 (m.give a c).2

/-- The ways of two listings come together. -/
def Alike (c : Contents) : Listing → Listing → Prop := Relation.Join (Way c)

section Alike

variable {a : Aead} {c : Contents} {l m n : Listing} {x y : Except StoreError (Option Document)}

/-- To come together is an equivalence, since a listing has one way to go. -/
theorem equivalence_alike (c : Contents) : Equivalence (Alike c) := by
  refine Relation.equivalence_join_reflTransGen ?_
  intro l m n hm hn
  exact ⟨m, .refl, hn.unique hm ▸ .refl⟩

/-- A listing comes together with every place on its way. -/
theorem Way.alike (h : Way c l m) : Alike c l m := ⟨m, h, .refl⟩

/-- Listings that come together have the same end of their ways. -/
theorem Alike.way (h : Alike c l m) (hn : Way c l n) (hthere : n.IsThere c) : Way c m n := by
  obtain ⟨k, hl, hm⟩ := h
  exact hm.trans (hl.rest hn hthere)

/-- Listings that come together are both complete or both not. -/
theorem Alike.isComplete_eq (h : Alike c l m) : m.isComplete = l.isComplete := by
  obtain ⟨k, hl, hm⟩ := h
  exact hm.isComplete_eq.symm.trans hl.isComplete_eq

/-- An undisturbed step brings one answer and leaves one listing. -/
theorem Brings.unique (hx : Brings a c l x m) (hy : Brings a c l y n) : x = y ∧ m = n := by
  cases hx with
  | complete h =>
    cases hy with
    | complete _ => exact ⟨rfl, rfl⟩
    | there hmore _ _ => simp [h] at hmore
  | there hmore hway hthere =>
    cases hy with
    | complete h => simp [h] at hmore
    | there _ hway' hthere' =>
      rw [hway.end_unique hway' hthere hthere']
      exact ⟨rfl, rfl⟩

/-- Listings that come together bring the same. -/
theorem Brings.of_alike (h : Brings a c l x m) (hl : Alike c l n) :
    ∃ k, Brings a c n x k ∧ Alike c m k := by
  cases h with
  | complete h => exact ⟨n, .complete (hl.isComplete_eq.trans h), hl⟩
  | there hmore hway hthere =>
    exact ⟨_, .there (hl.isComplete_eq.trans hmore) (hl.way hway hthere) hthere,
      (equivalence_alike c).refl _⟩

/-- A failure to show what is in front leaves the listing as it is. -/
theorem give_error {e : StoreError} (h : (l.give a c).1 = .error e) :
    l.give a c = (.error e, l) := by
  unfold give at h ⊢
  cases hbuffer : l.buffer with
  | nil =>
    simp only [hbuffer] at h ⊢
    split_ifs at h ⊢
    split at h
    · exact Prod.ext h rfl
    · simp at h
  | cons e rest =>
    simp only [hbuffer] at h ⊢
    split at h
    · simp at h
    · exact Prod.ext h rfl

/-- A failing step stands where it failed, and the next one fails there again. -/
theorem Brings.error {e : StoreError} (h : Brings a c l (.error e) m) :
    Way c l m ∧ m.IsThere c ∧ Brings a c m (.error e) m := by
  generalize hx : (.error e : Except StoreError (Option Document)) = x at h
  cases h with
  | complete h => simp at hx
  | @there k hmore hway hthere =>
    have hgive := give_error hx.symm
    rw [hgive]
    have hagain := Brings.there (a := a) (hway.isComplete_eq.trans hmore) .refl hthere
    rw [hgive] at hagain
    exact ⟨hway, hthere, hagain⟩

end Alike

/-! ## Undisturbed steps one after the other -/

/-- Undisturbed steps of a listing bring these answers. -/
inductive Trail (a : Aead) (c : Contents) :
    Listing → List (Except StoreError (Option Document)) → Prop where
  | nil (l : Listing) : Trail a c l []
  | cons {l m : Listing} {x : Except StoreError (Option Document)}
      {xs : List (Except StoreError (Option Document))} (h : Brings a c l x m)
      (hrest : Trail a c m xs) : Trail a c l (x :: xs)

namespace Trail

variable {a : Aead} {c : Contents} {l m : Listing} {e : StoreError}
  {x : Except StoreError (Option Document)} {xs ys : List (Except StoreError (Option Document))}

/-- Listings that come together bring the same answers. -/
theorem of_alike (h : Trail a c l xs) (hl : Alike c l m) : Trail a c m xs := by
  induction h generalizing m with
  | nil l => exact .nil m
  | cons h _ ih =>
    obtain ⟨k, hk, halike⟩ := h.of_alike hl
    exact .cons hk (ih halike)

/-- The answers of undisturbed steps are determined by their number. -/
theorem unique (hx : Trail a c l xs) (hy : Trail a c l ys) (h : xs.length = ys.length) :
    xs = ys := by
  induction hx generalizing ys with
  | nil l => exact (List.length_eq_zero_iff.1 h.symm).symm
  | cons hx _ ih =>
    cases hy with
    | nil l => simp at h
    | cons hy hys =>
      obtain ⟨hsame, hleft⟩ := hx.unique hy
      rw [hsame, ih (hleft ▸ hys) (by simpa using h)]

/-- Where a step fails and stands still, all further steps fail like it. -/
theorem eq_error (h : Trail a c l xs) (hl : Brings a c l (.error e) l) :
    ∀ x ∈ xs, x = .error e := by
  induction h with
  | nil l => simp
  | cons h _ ih =>
    obtain ⟨rfl, rfl⟩ := h.unique hl
    simpa using ih hl

/-- After a failure every step fails like it. -/
theorem stays (h : Trail a c l xs) {j k : Nat} (hjk : j ≤ k) (hj : xs[j]? = some (.error e))
    (hk : xs[k]? = some x) : x = .error e := by
  induction h generalizing j k with
  | nil l => simp at hj
  | @cons l m y ys hy hys ih =>
    cases j with
    | succ j =>
      cases k with
      | zero => omega
      | succ k => exact ih (Nat.le_of_succ_le_succ hjk) (by simpa using hj) (by simpa using hk)
    | zero =>
      have hy' : y = .error e := by simpa using hj
      rw [hy'] at hy
      cases k with
      | zero =>
        rw [← hy']
        simpa using hk.symm
      | succ k => exact hys.eq_error hy.error.2.2 x (List.mem_of_getElem? (by simpa using hk))

end Trail

/-! ## What undisturbed steps show -/

/-- What the steps of a listing show of the entries `es`: each of them, up to the first one that
cannot be read, and the failure to read that one for ever after; nothing at the end. -/
def showing (read : Entry → Except StoreError Document) :
    List Entry → Nat → Except StoreError (Option Document)
  | [], _ => .ok none
  | e :: es, k =>
    match read e with
    | .error error => .error error
    | .ok d =>
      match k with
      | 0 => .ok (some d)
      | k + 1 => showing read es k

section Showing

variable {read : Entry → Except StoreError Document} {e : Entry} {es : List Entry} {k : Nat}

/-- An entry that fails to read fails, however many documents are asked for. -/
theorem showing_of_error {error : StoreError} (h : read e = .error error) :
    showing read (e :: es) k = .error error := by
  unfold showing
  rw [h]

/-- The foremost entry is shown first. -/
theorem showing_zero_of_ok {d : Document} (h : read e = .ok d) :
    showing read (e :: es) 0 = .ok (some d) := by
  unfold showing
  rw [h]

/-- The entries behind it are shown next. -/
theorem showing_succ_of_ok {d : Document} (h : read e = .ok d) :
    showing read (e :: es) (k + 1) = showing read es k := by
  rw [showing, h]

/-- The end is shown when all entries have been. -/
theorem length_le_of_showing (h : showing read es k = .ok none) : es.length ≤ k := by
  induction es generalizing k with
  | nil => exact Nat.zero_le k
  | cons e es ih =>
    cases hread : read e with
    | error error => simp [showing_of_error hread] at h
    | ok d =>
      cases k with
      | zero => simp [showing_zero_of_ok hread] at h
      | succ k =>
        rw [showing_succ_of_ok hread] at h
        exact Nat.succ_le_succ (ih h)

/-- A listing shows the same of entries as of what it keeps of them. -/
theorem showing_view (l : Listing) (a : Aead) (es : List Entry) (k : Nat) :
    showing (l.read a) (l.view es) k = showing (l.read a) es k := by
  cases hpaths : l.pathsOnly with
  | false => simp [view, hpaths]
  | true =>
    have hview : l.view es = es.map fun e => (e.1, []) := by simp [view, hpaths]
    have hread : ∀ e, l.read a e = .ok ⟨Path.normalize e.1, [], none, none⟩ := by
      simp [Listing.read, hpaths]
    rw [hview]
    induction es generalizing k with
    | nil => rfl
    | cons e es ih =>
      rw [List.map_cons]
      cases k with
      | zero => rw [showing_zero_of_ok (hread _), showing_zero_of_ok (hread _)]
      | succ k =>
        rw [showing_succ_of_ok (hread _), showing_succ_of_ok (hread _)]
        exact ih k (by simp [view, hpaths])

end Showing

section Window

variable {a : Aead} {c : Contents} {l m : Listing} {x : Except StoreError (Option Document)}

/-- A stride leaves the window as it is. -/
theorem Strides.window_eq (hsize : 0 < l.pageSize) (h : Strides c l m) :
    m.window c = l.window c := by
  cases h with
  | read hbuffer hmore _ =>
    unfold window
    rw [pending_addPage hsize hmore]
    rfl
  | @pass e rest skip hbuffer hskip =>
    have hpending : l.pending c = e :: ({ l with buffer := rest, skip } : Listing).pending c := by
      unfold pending
      rw [hbuffer]
      rfl
    unfold window
    rw [hpending, hskip, List.drop_succ_cons]

/-- The whole way leaves the window as it is. -/
theorem Way.window_eq (hsize : 0 < l.pageSize) (h : Way c l m) : m.window c = l.window c := by
  induction h with
  | refl => rfl
  | tail hway hstride ih =>
    rw [hstride.window_eq ((Way.follows hway).pageSize ▸ hsize), ih]

/-- At the end nothing is left in the window. -/
theorem window_of_exhausted (hbuffer : l.buffer = []) (h : l.exhausted = true) :
    l.window c = [] := by
  simp [window, pending, hbuffer, h]

/-- An entry that is in front is the first one of the window. -/
theorem window_of_buffer {e : Entry} {rest : List Entry} (hbuffer : l.buffer = e :: rest)
    (hskip : l.skip = 0) (hmore : l.isComplete = false) :
    l.window c =
      e :: ({ l with buffer := rest, yielded := l.yielded + 1 } : Listing).window c := by
  have hpending : (l.pending c).drop l.skip =
      e :: ({ l with buffer := rest, yielded := l.yielded + 1 } : Listing).pending c := by
    unfold pending
    rw [hbuffer, hskip]
    rfl
  rw [window_eq_cons hpending hmore]
  unfold window
  rw [hskip, List.drop_zero]

/-- The answer is the failure of the contents to show a page of the listing. -/
def IsBlocked (l : Listing) (c : Contents) (x : Except StoreError (Option Document)) : Prop :=
  ∃ cause after, x = .error (.storage cause) ∧ c.scan l.range after l.pageSize = .error cause

/-- What blocks a listing blocked it before. -/
theorem Follows.isBlocked (h : l.Follows m) (hm : m.IsBlocked c x) : l.IsBlocked c x := by
  unfold IsBlocked at hm
  rw [h.range, h.pageSize] at hm
  exact hm

/-- An undisturbed step keeps the listing's range and settings. -/
theorem Brings.follows (h : Brings a c l x m) : l.Follows m := by
  cases h with
  | complete h => exact Follows.refl l
  | @there k hmore hway hthere =>
    refine hway.follows.trans ?_
    unfold give
    cases hbuffer : k.buffer with
    | nil =>
      dsimp only
      split_ifs
      · exact Follows.refl k
      · split
        · exact Follows.refl k
        · exact Follows.refl k
    | cons e rest =>
      dsimp only
      split
      · exact ⟨rfl, rfl, rfl, rfl, rfl, rfl⟩
      · exact Follows.refl k

/-- An undisturbed step shows the first entry of the window and leaves the others, or fails to
read it and leaves them all, unless the contents are damaged. -/
theorem Brings.showing_eq (hsize : 0 < l.pageSize) (h : Brings a c l x m) :
    (x = showing (l.read a) (l.window c) 0 ∧
      ∀ k, showing (l.read a) (m.window c) k = showing (l.read a) (l.window c) (k + 1)) ∨
      l.IsBlocked c x := by
  cases h with
  | complete h =>
    rw [window_of_isComplete h]
    exact .inl ⟨rfl, fun _ => rfl⟩
  | @there n hmore hway hthere =>
    have hn := hway.isComplete_eq.trans hmore
    rw [← hway.window_eq hsize, ← hway.follows.read]
    unfold IsThere at hthere
    unfold give
    cases hbuffer : n.buffer with
    | nil =>
      simp only [hbuffer] at hthere ⊢
      split_ifs with hexhausted
      · rw [window_of_exhausted hbuffer hexhausted]
        exact .inl ⟨rfl, fun _ => rfl⟩
      · obtain ⟨cause, hcause⟩ := Option.isSome_iff_exists.1 (hthere.resolve_left hexhausted)
        rw [hcause]
        refine .inr (hway.follows.isBlocked ⟨cause, n.after, rfl, ?_⟩)
        unfold fault? at hcause
        split at hcause
        · simp at hcause
        · rename_i error hscan
          rw [hscan, Option.some.inj hcause]
    | cons e rest =>
      simp only [hbuffer] at hthere ⊢
      rw [window_of_buffer hbuffer hthere hn]
      cases hread : n.read a e with
      | ok d =>
        refine .inl ⟨(showing_zero_of_ok hread).symm, fun k => ?_⟩
        exact (showing_succ_of_ok hread).symm
      | error error =>
        refine .inl ⟨(showing_of_error hread).symm, fun k => ?_⟩
        rw [window_of_buffer hbuffer hthere hn, showing_of_error hread, showing_of_error hread]

/-- Undisturbed steps show the window, unless the contents are damaged. -/
theorem Trail.showing_eq {xs : List (Except StoreError (Option Document))}
    (hsize : 0 < l.pageSize) (h : Trail a c l xs) {k : Nat} (hk : xs[k]? = some x) :
    x = showing (l.read a) (l.window c) k ∨ l.IsBlocked c x := by
  induction h generalizing k with
  | nil l => simp at hk
  | @cons l m y ys hy hys ih =>
    have hfollows := hy.follows
    cases k with
    | zero =>
      have hsame : y = x := by simpa using hk
      rw [← hsame]
      exact (hy.showing_eq hsize).imp_left And.left
    | succ k =>
      have hk : ys[k]? = some x := by simpa using hk
      rcases hy.showing_eq hsize with ⟨-, hleft⟩ | hblocked
      · rw [← hleft, ← hfollows.read]
        exact (ih (hfollows.pageSize ▸ hsize) hk).imp_right hfollows.isBlocked
      · -- After the first failure there is no other answer.
        obtain ⟨cause, after, rfl, hscan⟩ := hblocked
        rw [hys.eq_error hy.error.2.2 x (List.mem_of_getElem? hk)]
        exact .inr ⟨cause, after, rfl, hscan⟩

end Window

end Listing

/-! ## Visits -/

/-- A listing of the session that is not released and reads pages that hold something. -/
structure Listing.IsReady (l : Listing) (session : Session) : Prop where
  released : l.released = false
  generation : l.generation = session.generation
  pageSize : 0 < l.pageSize

/-- A listing of the same settings is ready where the other is. -/
theorem Listing.IsReady.of_follows {l m : Listing} {session : Session} (h : l.IsReady session)
    (hm : l.Follows m) : m.IsReady session :=
  ⟨hm.released.trans h.released, hm.generation.trans h.generation, hm.pageSize ▸ h.pageSize⟩

/-- Whether a failure is the caller's doing or the engine's, which may pass. -/
def StoreError.isPassing : StoreError → Bool
  | .cancelled => true
  | .deadlineExceeded => true
  | .storage _ => true
  | _ => false

/-- A visit to a listing: a step of it, in some context and surroundings. -/
structure Visit where
  ctx : Context
  scene : Scene

namespace Visit

/-- What a visit answers. -/
def answer (v : Visit) (l : Listing) : Except StoreError (Option Document) :=
  Call.answer (Listing.next v.ctx ⟨l, v.scene⟩)

/-- The listing as a visit leaves it. -/
def leave (v : Visit) (l : Listing) : Listing :=
  (Call.after (Listing.next v.ctx ⟨l, v.scene⟩)).listing

/-- The failure of a visit. -/
def failure? (v : Visit) (l : Listing) : Option StoreError :=
  match v.answer l with
  | .ok _ => none
  | .error e => some e

/-- The visit finds the session still open and these contents in the engine. -/
structure Meets (session : Session) (c : Contents) (v : Visit) : Prop where
  session : ∃ x, v.scene.store.session = some x ∧ x.generation = session.generation ∧
    x.cipher = session.cipher
  contents : v.scene.ambient.engine.contents = c

/-- Nothing disturbs the visit: the caller does not stop it, and no call of the engine fails but
for what the engine holds. -/
structure IsCalm (v : Visit) : Prop where
  verdict : v.ctx.verdict v.scene.ambient.boundaries = none
  isQuiet : v.scene.ambient.engine.IsQuiet

/-- The visit with nothing to disturb it. -/
def calmed (v : Visit) : Visit where
  ctx := .background
  scene := { v.scene with
    ambient := { v.scene.ambient with engine := { contents := v.scene.ambient.engine.contents } } }

/-- Whether a visit fails, for the caller or the engine, as it would not if nothing disturbed it. -/
def lapses (v : Visit) (l : Listing) : Bool :=
  match v.failure? l with
  | none => false
  | some e => e.isPassing && v.calmed.failure? l != some e

/-- The answers of visits one after the other. -/
def answers (l : Listing) : List Visit → List (Except StoreError (Option Document))
  | [] => []
  | v :: vs => v.answer l :: answers (v.leave l) vs

/-- The answers of those of the visits that do not lapse. -/
def settled (l : Listing) : List Visit → List (Except StoreError (Option Document))
  | [] => []
  | v :: vs =>
    if v.lapses l then settled (v.leave l) vs else v.answer l :: settled (v.leave l) vs

/-- Every visit has one answer. -/
theorem length_answers (l : Listing) (vs : List Visit) : (answers l vs).length = vs.length := by
  induction vs generalizing l with
  | nil => rfl
  | cons v vs ih => simp [answers, ih]

section Step

variable {session : Session} {c : Contents} {v : Visit} {l : Listing}

/-- A visit leaves a ready listing ready. -/
theorem isReady_leave (h : l.IsReady session) (v : Visit) : (v.leave l).IsReady session :=
  h.of_follows (Listing.keeps_next v.ctx ⟨l, v.scene⟩).listing

/-- A calmed visit is calm. -/
theorem isCalm_calmed (v : Visit) : v.calmed.IsCalm := ⟨rfl, .inl rfl, rfl⟩

/-- A calmed visit meets the session and the contents that the visit meets. -/
theorem Meets.calmed (h : v.Meets session c) : v.calmed.Meets session c := ⟨h.session, h.contents⟩

/-- A visit brings what an undisturbed step brings, or it is disturbed on the way and fails. -/
theorem outcome (hl : l.IsReady session) (hv : v.Meets session c) :
    Listing.Brings session.cipher c l (v.answer l) (v.leave l) ∨
      (¬ v.IsCalm ∧ Listing.Way c l (v.leave l) ∧
        ∃ e, v.answer l = .error e ∧ e.isPassing = true) := by
  cases hctx : v.ctx.verdict v.scene.ambient.boundaries with
  | some i =>
    obtain ⟨s, hnext⟩ := Listing.next_of_interruption (w := ⟨l, v.scene⟩) hl.released hctx
    unfold answer leave
    rw [hnext]
    refine .inr ⟨fun hcalm => ?_, .refl, _, rfl, ?_⟩
    · simp [hcalm.verdict] at hctx
    · cases i <;> rfl
  | none =>
    obtain ⟨s, hs, hnext⟩ := Listing.next_of_verdict (w := ⟨l, v.scene⟩) hl.released hctx
    unfold answer leave
    rw [hnext]
    cases hcomplete : l.isComplete with
    | true => exact .inl (.complete hcomplete)
    | false =>
      obtain ⟨x, hopen, hgeneration, hcipher⟩ := hv.session
      have hsession : Listing.session l ⟨l, s⟩ = .ok x ⟨l, s⟩ :=
        Listing.session_of_isOpen (hs.store ▸ hopen) (hgeneration.trans hl.generation.symm)
      rw [if_neg Bool.false_ne_true, Call.bind_ok hsession, hcipher]
      have hcontents : s.ambient.engine.contents = c := by
        rw [hs.engine]
        exact hv.contents
      have hwalks : Listing.Walks session.cipher ⟨l, s⟩
          (Listing.nextFrom session.cipher l.skip ⟨l, s⟩) :=
        Listing.walks_nextFrom rfl hl.pageSize
      -- From here on only where the walk arrives or fails matters.
      generalize Listing.nextFrom session.cipher l.skip ⟨l, s⟩ = r at hwalks
      cases hwalks with
      | @arrives m hway hthere hgive =>
        dsimp only at hway hthere hgive
        rw [hcontents] at hway hthere hgive
        have hbrings := Listing.Brings.there (a := session.cipher) hcomplete hway hthere
        rw [← hgive] at hbrings
        exact .inl hbrings
      | fails hfaulty hway hanswer =>
        dsimp only at hfaulty hway
        rw [hcontents] at hway
        rw [hs.engine] at hfaulty
        exact .inr ⟨fun hcalm => hfaulty hcalm.isQuiet, hway, _, hanswer, rfl⟩

/-- A calm visit brings what an undisturbed step brings. -/
theorem IsCalm.brings (h : v.IsCalm) (hl : l.IsReady session) (hv : v.Meets session c) :
    Listing.Brings session.cipher c l (v.answer l) (v.leave l) := by
  rcases outcome hl hv with hbrings | ⟨hdisturbed, -⟩
  · exact hbrings
  · exact absurd h hdisturbed

/-- The failure of a visit is its answer. -/
theorem failure?_eq_some {e : StoreError} (h : v.failure? l = some e) : v.answer l = .error e := by
  unfold failure? at h
  split at h
  · simp at h
  · rename_i f hf
    rw [hf, Option.some.inj h]

/-- An answer that is an error is the visit's failure. -/
theorem failure?_of_error {e : StoreError} (h : v.answer l = .error e) : v.failure? l = some e := by
  unfold failure?
  rw [h]

/-- A visit that brings what an undisturbed step brings does not lapse. -/
theorem lapses_of_brings (hl : l.IsReady session) (hv : v.Meets session c)
    (h : Listing.Brings session.cipher c l (v.answer l) (v.leave l)) : v.lapses l = false := by
  have hsame : v.calmed.answer l = v.answer l :=
    (v.isCalm_calmed.brings hl hv.calmed |>.unique h).1
  have hfailure : v.calmed.failure? l = v.failure? l := by
    unfold failure?
    rw [hsame]
  unfold lapses
  rw [hfailure]
  cases v.failure? l with
  | none => rfl
  | some e => simp

/-- A visit that lapses leaves the listing on its way. -/
theorem way_of_lapses (hl : l.IsReady session) (hv : v.Meets session c) (h : v.lapses l = true) :
    Listing.Way c l (v.leave l) := by
  rcases outcome hl hv with hbrings | ⟨-, hway, -⟩
  · simp [lapses_of_brings hl hv hbrings] at h
  · exact hway

/-- A visit that does not lapse brings what an undisturbed step brings, and leaves a listing on
the same way. -/
theorem brings_of_not_lapses (hl : l.IsReady session) (hv : v.Meets session c)
    (h : v.lapses l = false) :
    ∃ m, Listing.Brings session.cipher c l (v.answer l) m ∧ Listing.Alike c (v.leave l) m := by
  rcases outcome hl hv with hbrings | ⟨-, hway, e, hanswer, hpassing⟩
  · exact ⟨_, hbrings, (Listing.equivalence_alike c).refl _⟩
  · -- The failure is the one of the undisturbed visit, which stands where it failed.
    have hsame : v.calmed.failure? l = some e := by
      simpa [lapses, failure?_of_error hanswer, hpassing] using h
    have hcalmed := v.isCalm_calmed.brings hl hv.calmed
    rw [failure?_eq_some hsame] at hcalmed
    obtain ⟨hend, hthere, -⟩ := hcalmed.error
    rw [hanswer]
    exact ⟨_, hcalmed, (hway.rest hend hthere).alike⟩

end Step

/-! ## Visits one after the other -/

section Visits

variable {session : Session} {c : Contents} {l : Listing} {vs : List Visit}

/-- The visits that do not lapse answer as undisturbed steps do. -/
theorem trail_settled (hl : l.IsReady session) (hvs : ∀ v ∈ vs, v.Meets session c) :
    Listing.Trail session.cipher c l (settled l vs) := by
  induction vs generalizing l with
  | nil => exact .nil l
  | cons v vs ih =>
    obtain ⟨hv, hvs⟩ := List.forall_mem_cons.1 hvs
    have hrest := ih (isReady_leave hl v) hvs
    unfold settled
    split_ifs with hlapses
    · -- The lapse has left the listing on its way, from where the same steps follow.
      have hway := way_of_lapses hl hv hlapses
      exact hrest.of_alike ((Listing.equivalence_alike c).symm hway.alike)
    · obtain ⟨m, hm, halike⟩ := brings_of_not_lapses hl hv (by simpa using hlapses)
      exact .cons hm (hrest.of_alike halike)

/-- The answers of undisturbed visits are all settled. -/
theorem settled_eq_answers (hl : l.IsReady session)
    (hvs : ∀ v ∈ vs, v.Meets session c ∧ v.IsCalm) : settled l vs = answers l vs := by
  induction vs generalizing l with
  | nil => rfl
  | cons v vs ih =>
    obtain ⟨⟨hv, hcalm⟩, hvs⟩ := List.forall_mem_cons.1 hvs
    have hlapses := lapses_of_brings hl hv (hcalm.brings hl hv)
    unfold settled answers
    rw [hlapses, if_neg Bool.false_ne_true, ih (isReady_leave hl v) hvs]

/-- Visits one after the other in the surroundings that the visit before left, each in its own
context. -/
def inTurn (l : Listing) (s : Scene) : List Context → List Visit
  | [] => []
  | ctx :: rest =>
    let w := Call.after (Listing.next ctx ⟨l, s⟩)
    ⟨ctx, s⟩ :: inTurn w.listing w.scene rest

/-- Such visits all find the session and the contents that the first one finds. -/
theorem meets_inTurn {s : Scene} (hopen : s.store.session = some session)
    (hcontents : s.ambient.engine.contents = c) (l : Listing) (ctxs : List Context) :
    ∀ v ∈ inTurn l s ctxs, v.Meets session c := by
  induction ctxs generalizing l s with
  | nil => simp [inTurn]
  | cons ctx rest ih =>
    have hkeeps := (Listing.keeps_next ctx ⟨l, s⟩).scene
    have hfirst : Visit.Meets session c ⟨ctx, s⟩ := ⟨⟨session, hopen, rfl, rfl⟩, hcontents⟩
    refine List.forall_mem_cons.2 ⟨hfirst, ih ?_ ?_ _⟩
    · rw [hkeeps.store]
      exact hopen
    · rw [hkeeps.contents]
      exact hcontents

end Visits

/-! ## The main result -/

/-- What visits to a listing of these contents come to, when some of them lapse. -/
structure Resumes (session : Session) (c : Contents) (parent : String) (window : Window)
    (l : Listing) (vs : List Visit) : Prop where
  /-- The visits that do not lapse answer, one by one, as undisturbed visits do. -/
  undisturbed : ∀ us : List Visit, (∀ u ∈ us, u.Meets session c ∧ u.IsCalm) →
    us.length = (settled l vs).length → answers l us = settled l vs
  /-- They show the window, each document once and in its place, unless the contents are
  damaged. -/
  shown : ∀ k x, (settled l vs)[k]? = some x →
    x = Listing.showing (l.read session.cipher) (window.of parent c.entries) k ∨ l.IsBlocked c x
  /-- They show the end only after all documents of the window. -/
  complete : ∀ k : Nat, (settled l vs)[k]? = some (.ok none) →
    (window.of parent c.entries).length ≤ k
  /-- Once one of them fails, they all fail like it. -/
  stays : ∀ (j k : Nat) (e : StoreError) (x : Except StoreError (Option Document)), j ≤ k →
    (settled l vs)[j]? = some (.error e) → (settled l vs)[k]? = some x → x = .error e

/-- A listing is started and visited, in the same session and with the same contents in the
engine, and any of the visits may lapse: the caller stops it, or the engine fails at some page.
The others answer as if these had not been. -/
theorem resumes_of_list {ctx : Context} {parent : String} {window : Window} {s t : Scene}
    {session : Session} {c : Contents} {l : Listing} {vs : List Visit}
    (hopen : s.store.session = some session) (hlist : Store.list ctx parent window s = .ok l t)
    (hvs : ∀ v ∈ vs, v.Meets session c) : Resumes session c parent window l vs := by
  obtain ⟨session', hopen', hfresh⟩ := Listing.list_eq_fresh hlist
  obtain rfl : session = session' := Option.some.inj (hopen.symm.trans hopen')
  have hl : l.IsReady session := by
    rw [hfresh]
    exact ⟨rfl, rfl, Nat.le_max_left 1 s.store.config.pageSize⟩
  have htrail := trail_settled hl hvs
  have hshown : ∀ k x, (settled l vs)[k]? = some x →
      x = Listing.showing (l.read session.cipher) (window.of parent c.entries) k ∨
        l.IsBlocked c x := by
    intro k x hk
    have hwindow : l.window c = l.view (window.of parent c.entries) := by
      rw [hfresh]
      exact Listing.window_fresh session _ parent window c
    rw [← Listing.showing_view, ← hwindow]
    exact htrail.showing_eq hl.pageSize hk
  refine ⟨?_, hshown, ?_, fun j k e x hjk hj hk => htrail.stays hjk hj hk⟩
  · intro us hus hlength
    have hcalm := trail_settled hl fun u hu => (hus u hu).1
    rw [settled_eq_answers hl hus] at hcalm
    refine hcalm.unique htrail ?_
    rw [length_answers, hlength]
  · intro k hk
    rcases hshown k _ hk with hnone | ⟨cause, after, hsame, -⟩
    · exact Listing.length_le_of_showing hnone.symm
    · simp at hsame

/-- A listing of three keys, without the first one and read in pages of one key: the engine fails
at the second page, while entries are still passed over, and then the caller stops a visit.  The
visits after that show the other two keys and the end. -/
theorem resumes_of_three_keys :
    let session : Session := ⟨1, (Key.uniform 7).cipher, .empty⟩
    let plan : FaultPlan := [⟨.scanKeys, none, 1, some 1, .scanning, "planned", 0⟩]
    let c : Contents := .volatile ⟨[("/a", []), ("/b", []), ("/c", [])], by decide⟩
    let s : Scene := ⟨{ config := { Config.standard with pageSize := 1 }, session := some session },
      { engine := { contents := c, face := .watched plan }, clock := .standard,
        entropy := ⟨fun _ => 0, 0⟩ }⟩
    ∃ l t vs, Store.list .background "/" { index := 1, pathsOnly := true } s = .ok l t ∧
      vs = inTurn l t [.background, .steady (some .cancelled), .background, .background,
        .background] ∧
      Resumes session c "/" { index := 1, pathsOnly := true } l vs ∧
      (∃ us : List Visit, (∀ u ∈ us, u.Meets session c ∧ u.IsCalm) ∧ answers l us = settled l vs) ∧
      (answers l vs).map (fun x => x.toOption.map (Option.map Document.path)) =
        [none, none, some (some "/b"), some (some "/c"), some none] ∧
      (settled l vs).map (fun x => x.toOption.map (Option.map Document.path)) =
        [some (some "/b"), some (some "/c"), some none] := by
  intro session plan c s
  let l : Listing := .fresh session 1 "/" { index := 1, pathsOnly := true }
  let t := Call.after (Store.list .background "/" { index := 1, pathsOnly := true } s)
  let vs := inTurn l t [.background, .steady (some .cancelled), .background, .background,
    .background]
  have hlist : Store.list .background "/" { index := 1, pathsOnly := true } s = .ok l t := rfl
  have hvs : ∀ v ∈ vs, v.Meets session c := meets_inTurn rfl rfl l _
  have hresumes := resumes_of_list rfl hlist hvs
  let us := (vs.take 3).map calmed
  have hus : ∀ u ∈ us, u.Meets session c ∧ u.IsCalm := by
    intro u hu
    obtain ⟨v, hv, rfl⟩ := List.mem_map.1 hu
    exact ⟨(hvs v (List.mem_of_mem_take hv)).calmed, v.isCalm_calmed⟩
  have hlength : us.length = (settled l vs).length := by
    unfold us vs t l s c plan session
    decide +kernel
  refine ⟨l, t, vs, hlist, rfl, hresumes, ⟨us, hus, hresumes.undisturbed us hus hlength⟩, ?_, ?_⟩
  · unfold vs t l s c plan session
    decide +kernel
  · unfold vs t l s c plan session
    decide +kernel

end Visit

end Strongbox
