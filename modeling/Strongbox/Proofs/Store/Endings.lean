import Strongbox.Proofs.Store.Collections

/-!
# Every walk ends

A listing that is collected takes a step only for an entry that it has still to come upon, and
the walk over all keys reads a page only for keys that are still ahead.  So their steps suffice,
whatever the caller and the engine do on the way: they answer or fail.  The main statements are
`Store.answer_documents_ne_none`, `Store.answer_count_ne_none` and
`Store.answer_collections_ne_none`.
-/

set_option autoImplicit false

namespace Strongbox

namespace Listing

variable {a : Aead} {ctx : Context} {w v : Walk} {d : Document} {c : Contents}

/-! ## Steps of a listing -/

/-- An entry that is handed out was taken before: what is still to come stays. -/
theorem pending_of_hand {e : Entry} (h : hand a e w = .ok d v) :
    v.listing.pending c = w.listing.pending c := by
  rcases hand_cases a e w with ⟨d', -, hrun⟩ | ⟨error, t, -, -, hrun⟩
  · rw [hrun] at h
    injection h with _ hv
    rw [← hv]
    rfl
  · rw [hrun] at h
    exact absurd h (by simp)

/-- An entry that is taken was the foremost of those still to come. -/
theorem length_pending_of_take {e : Entry} (hsize : 0 < w.listing.pageSize)
    (h : take w = .ok (some e) v) :
    (v.listing.pending w.scene.ambient.engine.contents).length + 1 =
      (w.listing.pending w.scene.ambient.engine.contents).length := by
  obtain ⟨hhead, hlisting⟩ := take_eq_ok h
  rw [head?_refilled hsize] at hhead
  obtain ⟨rest, hrest⟩ := List.head?_eq_some_iff.1 hhead.symm
  rw [hlisting, pending_taken hsize, hrest]
  rfl

/-- What takes the next entry and hands out a document has taken one. -/
theorem exists_of_take {f : Option Entry → Step (Option Document)} (hnone : f none = pure none)
    (h : (take >>= f) w = .ok (some d) v) :
    ∃ e u, take w = .ok (some e) u ∧ f (some e) u = .ok (some d) v := by
  obtain ⟨x, u, htake, hrest⟩ := Call.exists_of_bind_ok h
  cases x with
  | none =>
    rw [hnone] at hrest
    injection hrest with hsome
    exact absurd hsome (by simp)
  | some e => exact ⟨e, u, htake, hrest⟩

/-- A step that hands out a document leaves fewer entries to come upon. -/
theorem length_pending_of_nextFrom {skip : Nat} (hsize : 0 < w.listing.pageSize)
    (h : nextFrom a skip w = .ok (some d) v) :
    (v.listing.pending w.scene.ambient.engine.contents).length <
      (w.listing.pending w.scene.ambient.engine.contents).length := by
  induction skip generalizing w with
  | zero =>
    obtain ⟨e, u, htake, hrest⟩ := exists_of_take rfl h
    obtain ⟨d', u', hhand, hpure⟩ := Call.exists_of_bind_ok hrest
    injection hpure with _ hv
    have htaken := length_pending_of_take hsize htake
    rw [← hv, pending_of_hand hhand]
    omega
  | succ skip ih =>
    obtain ⟨e, u, htake, hrest⟩ := exists_of_take rfl h
    have hu := keeps_take.ok htake
    have htaken := length_pending_of_take hsize htake
    -- An entry that is passed over is taken as well.
    have hpass := ih (w := { u with listing := { u.listing with skip } })
      (hu.listing.pageSize.symm ▸ hsize) hrest
    dsimp only at hpass
    rw [hu.scene.contents] at hpass
    have hsame : ({ u.listing with skip } : Listing).pending w.scene.ambient.engine.contents =
        u.listing.pending w.scene.ambient.engine.contents := rfl
    rw [hsame] at hpass
    omega

/-- So does a step with all that may stop it. -/
theorem length_pending_of_next (hsize : 0 < w.listing.pageSize)
    (h : next ctx w = .ok (some d) v) :
    (v.listing.pending v.scene.ambient.engine.contents).length <
      (w.listing.pending w.scene.ambient.engine.contents).length := by
  rw [((keeps_next ctx).ok h).scene.contents]
  rcases cases_of_next h with ⟨-, hnone⟩ | ⟨session, s, -, hs, hfrom⟩
  · exact absurd hnone (by simp)
  · have hfewer := length_pending_of_nextFrom (w := { w with scene := s }) hsize hfrom
    dsimp only at hfewer
    rw [hs.engine] at hfewer
    exact hfewer

/-! ## Whole listings -/

/-- With a step for every entry still to come, and one for the end, the steps reach the end. -/
theorem answer_drain_ne_none (ctx : Context) {fuel : Nat} (done : List Document)
    (hsize : 0 < w.listing.pageSize)
    (hfuel : (w.listing.pending w.scene.ambient.engine.contents).length < fuel) :
    Call.answer (drain ctx fuel done w) ≠ .ok none := by
  induction fuel generalizing w done with
  | zero => omega
  | succ fuel ih =>
    refine Call.answer_bind_ne fun x v hnext => ?_
    cases x with
    | none => exact fun hnone => absurd (Except.ok.inj hnone) (Option.some_ne_none _)
    | some d =>
      have hfewer := length_pending_of_next hsize hnext
      have hpageSize := ((keeps_next ctx).ok hnext).listing.pageSize
      exact ih (d :: done) (hpageSize.symm ▸ hsize) (by omega)

/-- A listing has no more entries to come upon than it takes steps. -/
theorem length_pending_lt_bound (w : Walk) :
    (w.listing.pending w.scene.ambient.engine.contents).length < bound w := by
  have hahead := w.scene.ambient.engine.contents.length_ahead_le w.listing.range w.listing.after
  unfold pending bound
  split
  · simp only [List.length_append, List.length_nil]
    omega
  · simp only [List.length_append, length_view]
    omega

/-- A listing that is collected comes to its end or fails. -/
theorem answer_run_collect_ne (ctx : Context) {l : Listing} (m : Listing) {s : Scene}
    (hsize : 0 < l.pageSize) :
    Call.answer (l.run (collect ctx) s) ≠ .ok (none, m) := by
  have hdrain := answer_drain_ne_none (w := ⟨l, s⟩) ctx [] hsize (length_pending_lt_bound _)
  unfold run collect
  cases hrun : drain ctx (bound ⟨l, s⟩) [] ⟨l, s⟩ with
  | error e v => simp [Call.answer]
  | ok x v =>
    rw [hrun] at hdrain
    simp only [Call.answer, ne_eq, Except.ok.injEq, Prod.mk.injEq, not_and] at hdrain ⊢
    exact fun hnone => absurd hnone hdrain

end Listing

namespace Store

open StoreCall

variable {ctx : Context} {s t : Scene}

/-- The pages of a listing hold at least one entry each. -/
theorem pageSize_of_list {parent : String} {window : Window} {l : Listing}
    (h : list ctx parent window s = .ok l t) : 0 < l.pageSize := by
  obtain ⟨_, u, -, hrest⟩ := Call.exists_of_bind_ok h
  obtain ⟨session, u', -, hrest⟩ := Call.exists_of_bind_ok hrest
  obtain ⟨_, v, -, hlist⟩ := Call.exists_of_bind_ok hrest
  injection hlist with hl
  rw [← hl]
  exact Nat.le_max_left 1 v.store.config.pageSize

/-- The documents below a parent are all found, or their listing fails. -/
theorem answer_documents_ne_none (ctx : Context) (parent : String) (window : Window) (s : Scene) :
    Call.answer (documents ctx parent window s) ≠ .ok none := by
  refine Call.answer_bind_ne fun l t hlist => Call.answer_bind_ne fun x u hcollect => ?_
  have hcollected := Listing.answer_run_collect_ne ctx x.2 (s := t) (pageSize_of_list hlist)
  rw [hcollect] at hcollected
  intro hnone
  have hfirst : x.1 = none := Except.ok.inj hnone
  exact hcollected (congrArg Except.ok (Prod.ext hfirst rfl))

/-- So are they counted. -/
theorem answer_count_ne_none (ctx : Context) (parent stem : String) (s : Scene) :
    Call.answer (count ctx parent stem s) ≠ .ok none := by
  refine Call.answer_bind_ne fun l t hlist => Call.answer_bind_ne fun x u hcollect => ?_
  have hcollected := Listing.answer_run_collect_ne ctx x.2 (s := t) (pageSize_of_list hlist)
  rw [hcollect] at hcollected
  intro hnone
  have hfirst : x.1 = none := Option.map_eq_none_iff.1 (Except.ok.inj hnone)
  exact hcollected (congrArg Except.ok (Prod.ext hfirst rfl))

/-! ## The walk over all keys -/

/-- A full page is followed by fewer keys than were ahead of it. -/
theorem length_ahead_of_scanKeys {pageSize : Nat} (hsize : 0 < pageSize) {after : Option String}
    {keys : List String}
    (h : onBarrier Path.root (Barrier.scanKeys Path.root after pageSize) s = .ok keys t)
    (hne : keys ≠ []) :
    (t.ambient.engine.contents.ahead Path.root keys.getLast?).length <
      (s.ambient.engine.contents.ahead Path.root after).length := by
  obtain ⟨g, hscan⟩ := Barrier.onEngine_eq_ok (onBarrier_eq_ok h)
  have hcontents : t.ambient.engine.contents = s.ambient.engine.contents :=
    ((leads_onBarrier (Barrier.leads_scanKeys Path.root after pageSize)).ok h :
      s.Leads Effect.Reads t).keeps.contents
  obtain ⟨hkeys, -⟩ := Engine.scanKeys_eq_ok hscan
  have hcut : Range.cut pageSize (s.ambient.engine.contents.ahead Path.root after) =
      (s.ambient.engine.contents.ahead Path.root after).take pageSize := if_neg (by omega)
  rw [hcut] at hkeys
  cases hlast : ((s.ambient.engine.contents.ahead Path.root after).take pageSize).getLast? with
  | none =>
    rw [List.getLast?_eq_none_iff.1 hlast] at hkeys
    exact absurd hkeys hne
  | some e =>
    have hmem := List.mem_of_getLast? hlast
    have hpos := List.length_pos_of_mem (List.mem_of_mem_take hmem)
    rw [hkeys, List.getLast?_map, hlast, hcontents]
    show (s.ambient.engine.contents.ahead Path.root (some e.1)).length < _
    rw [Contents.ahead_of_getLast? hlast, List.length_drop]
    omega

/-- With a page for every key ahead, and one for the end, the walk reaches the end. -/
theorem answer_collectNames_ne_none (ctx : Context) {pageSize fuel : Nat} (hsize : 0 < pageSize)
    (after : Option String) (names : List String)
    (hfuel : (s.ambient.engine.contents.ahead Path.root after).length < fuel) :
    Call.answer (collectNames ctx pageSize fuel after names s) ≠ .ok none := by
  induction fuel generalizing s after names with
  | zero => omega
  | succ fuel ih =>
    refine Call.answer_bind_ne fun _ t hboundary => Call.answer_bind_ne fun keys u hscan => ?_
    have ht := (leads_boundary ctx).keeps.ok hboundary
    split
    · exact fun hnone => absurd (Except.ok.inj hnone) (Option.some_ne_none _)
    · rename_i hfull
      have hne : keys ≠ [] := fun hnil => hfull (by simp [hnil])
      have hfewer := length_ahead_of_scanKeys hsize hscan hne
      rw [ht.contents] at hfewer
      exact ih keys.getLast? _ (by omega)

/-- The collections are all found, or the walk over the keys fails. -/
theorem answer_collections_ne_none (ctx : Context) (parent : String) (s : Scene) :
    Call.answer (collections ctx parent s) ≠ .ok none := by
  refine Call.answer_bind_ne fun _ t _ => ?_
  split
  · exact fun hnone => absurd (Call.eq_ok_of_answer hnone) Call.throw_ne_ok
  · refine Call.answer_bind_ne fun session u _ => Call.answer_bind_ne fun names v hnames => ?_
    have hwalk := answer_collectNames_ne_none (s := u) ctx
      (Nat.le_max_left 1 u.store.config.pageSize) none []
      (Nat.lt_succ_of_le (Contents.length_ahead_le _ Path.root none))
    have hanswer := congrArg Call.answer hnames
    intro hnone
    have hnames : names = none := Option.map_eq_none_iff.1 (Except.ok.inj hnone)
    rw [hnames] at hanswer
    exact hwalk hanswer

end Store

end Strongbox
