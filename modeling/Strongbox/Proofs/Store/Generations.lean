import Strongbox.Proofs.Store.Changes
import Strongbox.Proofs.Store.Course

/-!
# Listings of sessions that are over

Every opening of a store gives its session a number that no session had before, so a listing
of a session that was closed never belongs to a later one.  A step of it says so, unless it
has handed out as many documents as it may: then it says that it is at its end.  The main
result is `Listing.answer_of_closed`.
-/

set_option autoImplicit false

namespace Strongbox

/-! ## Sessions one after the other -/

/-- The session of a store after an operation is the one it had, as its number tells, or one
with a new number. -/
structure Store.Ages (s t : Store) : Prop where
  generations_le : s.generations ≤ t.generations
  session : ∀ x, t.session = some x →
    (∃ y, s.session = some y ∧ y.generation = x.generation) ∨
      (s.generations < x.generation ∧ x.generation ≤ t.generations)

namespace Store.Ages

/-- A store is as old as itself. -/
theorem refl (s : Store) : s.Ages s :=
  ⟨Nat.le_refl _, fun x hx => .inl ⟨x, hx, rfl⟩⟩

/-- Ages add up. -/
theorem trans {s t u : Store} (hst : s.Ages t) (htu : t.Ages u) : s.Ages u := by
  have hle := hst.generations_le
  refine ⟨Nat.le_trans hle htu.generations_le, ?_⟩
  intro x hx
  rcases htu.session x hx with ⟨y, hy, hsame⟩ | ⟨hlow, hhigh⟩
  · rcases hst.session y hy with ⟨z, hz, hsame'⟩ | ⟨hlow, hhigh⟩
    · exact .inl ⟨z, hz, hsame'.trans hsame⟩
    · have htop := htu.generations_le
      exact .inr ⟨by omega, by omega⟩
  · exact .inr ⟨by omega, hhigh⟩

end Store.Ages

/-- The store of a scene ages. -/
def Scene.Ages (s t : Scene) : Prop := s.store.Ages t.store

namespace Scene.Ages

/-- A scene is as old as itself. -/
theorem refl (s : Scene) : s.Ages s := Store.Ages.refl s.store

/-- Ages add up. -/
theorem trans (s t u : Scene) (hst : s.Ages t) (htu : t.Ages u) : s.Ages u :=
  Store.Ages.trans hst htu

/-- A scene with the same store has not aged. -/
theorem of_store {s t : Scene} (h : t.store = s.store) : s.Ages t := by
  unfold Scene.Ages
  rw [h]
  exact Store.Ages.refl s.store

end Scene.Ages

/-- Whatever a call does, the store ages. -/
theorem Scene.Leads.ages {P : Effect → Prop} {s t : Scene} (h : s.Leads P t) : s.Ages t := by
  refine h.preserves (R := s.Ages) (Scene.Ages.refl s) fun u v e _ hstep hu => ?_
  refine Scene.Ages.trans _ _ _ hu ?_
  cases hstep with
  | install cipher =>
    refine ⟨Nat.le_succ _, fun x hx => ?_⟩
    injection hx with hx
    rw [← hx]
    exact .inr ⟨Nat.lt_succ_self _, Nat.le_refl _⟩
  | close => exact ⟨Nat.le_refl _, fun x hx => absurd hx (by simp)⟩
  | keepCursor path cursor =>
    -- The session changes, but not its number.
    refine ⟨Nat.le_refl _, fun x hx => ?_⟩
    obtain ⟨y, hy, hsame⟩ := Option.map_eq_some_iff.1 hx
    exact .inl ⟨y, hy, by rw [← hsame]⟩
  | _ => exact .of_store rfl

/-! ## Runs -/

/-- What can happen to a store in its surroundings: it is told something, with any key where it
is opened, or its surroundings change, be it that another engine takes the place of the old
one or that somebody else works with the one that there is. -/
inductive Scene.Move (s : Scene) : Scene → Prop where
  | command (a : Aead) (c : Command) : Move s (c.run a s)
  | surroundings (ambient : Ambient) : Move s { s with ambient }

/-- What can happen to a listing and its store. -/
inductive Walk.Move (w : Walk) : Walk → Prop where
  | scene {s : Scene} (h : w.scene.Move s) : Move w { w with scene := s }
  | next (ctx : Context) : Move w (Call.after (Listing.next ctx w))
  | release : Move w { w with listing := w.listing.release }

/-- A run of a store. -/
def Scene.Runs : Scene → Scene → Prop := Relation.ReflTransGen Scene.Move

/-- A run of a listing and its store. -/
def Walk.Runs : Walk → Walk → Prop := Relation.ReflTransGen Walk.Move

/-- Whatever is done to a store, it ages. -/
theorem Scene.Move.ages {s t : Scene} (h : s.Move t) : s.Ages t := by
  cases h with
  | command a c => exact (c.leads_run a s).ages
  | surroundings ambient => exact .of_store rfl

/-- It ages whatever is done to a listing of it, too. -/
theorem Walk.Move.ages {w v : Walk} (h : w.Move v) : w.scene.Ages v.scene := by
  cases h with
  | scene h => exact h.ages
  | next ctx => exact (Listing.keeps_next ctx w).leads.ages
  | release => exact .of_store rfl

/-- A listing belongs to the session in which it was started, whatever is done. -/
theorem Walk.Move.generation_eq {w v : Walk} (h : w.Move v) :
    v.listing.generation = w.listing.generation := by
  cases h with
  | scene h => rfl
  | next ctx => exact (Listing.keeps_next ctx w).listing.generation
  | release => rfl

/-- A store ages along every run. -/
theorem Scene.Runs.ages {s t : Scene} (h : s.Runs t) : s.Ages t := by
  induction h with
  | refl => exact Scene.Ages.refl s
  | tail _ hmove ih => exact Scene.Ages.trans _ _ _ ih hmove.ages

/-- It ages along every run with a listing. -/
theorem Walk.Runs.ages {w v : Walk} (h : w.Runs v) : w.scene.Ages v.scene := by
  induction h with
  | refl => exact Scene.Ages.refl w.scene
  | tail _ hmove ih => exact Scene.Ages.trans _ _ _ ih hmove.ages

/-- Along every run the listing belongs to the same session. -/
theorem Walk.Runs.generation_eq {w v : Walk} (h : w.Runs v) :
    v.listing.generation = w.listing.generation := by
  induction h with
  | refl => rfl
  | tail _ hmove ih => exact hmove.generation_eq.trans ih

/-! ## The main result -/

namespace Listing

/-- No session of the store, now or later, is the one to which the listing belongs. -/
structure IsOver (w : Walk) : Prop where
  generation_le : w.listing.generation ≤ w.scene.store.generations
  generation_ne : ∀ x, w.scene.store.session = some x → x.generation ≠ w.listing.generation

/-- A session that is over remains so. -/
theorem IsOver.of_ages {w v : Walk} (h : IsOver w) (hages : w.scene.Ages v.scene)
    (hsame : v.listing.generation = w.listing.generation) : IsOver v := by
  have hle := h.generation_le
  refine ⟨?_, ?_⟩
  · rw [hsame]
    exact Nat.le_trans hle hages.generations_le
  · intro x hx
    rw [hsame]
    rcases hages.session x hx with ⟨y, hy, hnumber⟩ | ⟨hlow, -⟩
    · exact hnumber ▸ h.generation_ne y hy
    · omega

/-- A listing that has handed out as many documents as it may does not look at its store. -/
theorem answer_next_of_isComplete {w : Walk} {ctx : Context}
    (hreleased : w.listing.released = false)
    (hctx : ctx.verdict w.scene.ambient.boundaries = none)
    (hcomplete : w.listing.isComplete = true) : Call.answer (next ctx w) = .ok none := by
  obtain ⟨s, -, hnext⟩ := next_of_verdict hreleased hctx
  rw [hnext, if_pos hcomplete]
  rfl

/-- A step of a listing whose session is over, unless the caller stops it. -/
theorem IsOver.answer_next {w : Walk} (h : IsOver w) {ctx : Context}
    (hreleased : w.listing.released = false)
    (hctx : ctx.verdict w.scene.ambient.boundaries = none) :
    Call.answer (next ctx w) =
      if w.listing.isComplete then .ok none else .error .iteratorInvalidated := by
  split_ifs with hcomplete
  · exact answer_next_of_isComplete hreleased hctx hcomplete
  · obtain ⟨s, hs, hnext⟩ := next_of_verdict hreleased hctx
    have hsession : session w.listing { w with scene := s } =
        .error .iteratorInvalidated { w with scene := s } := by
      unfold session
      dsimp only
      rw [hs.store]
      cases hopen : w.scene.store.session with
      | none => rfl
      | some x =>
        dsimp only
        rw [if_neg (h.generation_ne x hopen)]
    rw [hnext, if_neg hcomplete, Call.bind_error hsession]
    rfl

/-- A listing was started in some session of a new store, and that session was closed.  Whatever
happened before, between and since, a step that is not stopped says that the listing is over;
only one that has handed out as many documents as it may says that it is at its end. -/
theorem answer_of_closed {config : Config} {r s t u : Scene} {l : Listing} {w v : Walk}
    {ctx ctx' : Context} {parent : String} {window : Window} (hnew : r.store = .new config)
    (hbefore : r.Runs s) (hlist : Store.list ctx parent window s = .ok l t)
    (hmeanwhile : Walk.Runs ⟨l, t⟩ w) (hclose : Store.close w.scene = .ok () u)
    (hsince : Walk.Runs ⟨w.listing, u⟩ v) (hreleased : v.listing.released = false)
    (hctx : ctx'.verdict v.scene.ambient.boundaries = none) :
    Call.answer (next ctx' v) =
      if v.listing.isComplete then .ok none else .error .iteratorInvalidated := by
  obtain ⟨session, hopen, hfresh⟩ := list_eq_fresh hlist
  have hstart : l.generation ≤ s.store.generations := by
    have hages : r.store.Ages s.store := hbefore.ages
    rw [hfresh]
    rcases hages.session session hopen with ⟨y, hy, -⟩ | ⟨-, hle⟩
    · rw [hnew] at hy
      exact absurd hy (by simp [Store.new])
    · exact hle
  have hover : IsOver ⟨w.listing, u⟩ := by
    have hkeeps := (Store.leads_list ctx parent window).keeps.ok hlist
    have hclosed : u.store.session = none := by
      obtain ⟨x, y, -, hrest⟩ := Call.exists_of_bind_ok hclose
      injection hrest with _ hu
      rw [← hu]
      rfl
    have hages : w.scene.Ages u := by
      have hafter := (Store.leads_close w.scene).ages
      rw [hclose] at hafter
      exact hafter
    have hle : t.store.generations ≤ w.scene.store.generations := hmeanwhile.ages.generations_le
    refine ⟨?_, ?_⟩
    · rw [hmeanwhile.generation_eq]
      rw [hkeeps.store] at hle
      exact Nat.le_trans hstart (Nat.le_trans hle hages.generations_le)
    · intro x hx
      rw [hclosed] at hx
      exact absurd hx (by simp)
  exact (hover.of_ages hsince.ages hsince.generation_eq).answer_next hreleased hctx

/-- A listing without limit is started, handed on once, and asked again after its store was
closed and opened anew. -/
theorem answer_of_reopened :
    let cipher := (Key.uniform 7).cipher
    let r : Scene := ⟨.new .standard,
      { engine := { contents := .volatile ⟨[("/a", []), ("/b", [])], by decide⟩ },
        clock := .standard, entropy := ⟨fun _ => 0, 0⟩ }⟩
    let s := Command.run cipher r (.openStore .background)
    ∃ l t u w v, Store.list .background "/" { pathsOnly := true } s = .ok l t ∧
      r.Runs s ∧ Walk.Runs ⟨l, t⟩ w ∧ Store.close w.scene = .ok () u ∧
      Walk.Runs ⟨w.listing, u⟩ v ∧ v.listing.released = false ∧ v.listing.yielded = 1 ∧
      v.scene.store.isOpen = true ∧
      Call.answer (next .background v) = .error .iteratorInvalidated := by
  intro cipher r s
  let l : Listing := .fresh ⟨1, cipher, .empty⟩ 128 "/" { pathsOnly := true }
  let t := Call.after (Store.list .background "/" { pathsOnly := true } s)
  let w := Call.after (next .background ⟨l, t⟩)
  let u := Call.after (Store.close w.scene)
  let v : Walk := ⟨w.listing, Command.run cipher u (.openStore .background)⟩
  have hlist : Store.list .background "/" { pathsOnly := true } s = .ok l t := rfl
  have hbefore : r.Runs s := .single (.command cipher (.openStore .background))
  have hmeanwhile : Walk.Runs ⟨l, t⟩ w := .single (.next .background)
  have hclose : Store.close w.scene = .ok () u := Call.eq_ok_of_answer (by
    unfold w t l s r cipher
    decide +kernel)
  have hsince : Walk.Runs ⟨w.listing, u⟩ v :=
    .single (.scene (.command cipher (.openStore .background)))
  have hreleased : v.listing.released = false := by
    unfold v w t l s r cipher
    decide +kernel
  have hyielded : v.listing.yielded = 1 := by
    unfold v w t l s r cipher
    decide +kernel
  have hopen : v.scene.store.isOpen = true := by
    unfold v u w t l s r cipher
    decide +kernel
  have hcomplete : v.listing.isComplete = false := by
    unfold v w t l s r cipher
    decide +kernel
  have hctx : Context.background.verdict v.scene.ambient.boundaries = none := rfl
  have hanswer := answer_of_closed rfl hbefore hlist hmeanwhile hclose hsince hreleased hctx
  rw [hcomplete] at hanswer
  exact ⟨l, t, u, w, v, hlist, hbefore, hmeanwhile, hclose, hsince, hreleased, hyielded, hopen,
    hanswer⟩

/-- A listing that may hand out one document has done so when its store is closed, and then says
that it is at its end instead of that it is over. -/
theorem answer_none_of_closed_at_limit :
    let cipher := (Key.uniform 7).cipher
    let r : Scene := ⟨.new .standard,
      { engine := { contents := .volatile ⟨[("/a", []), ("/b", [])], by decide⟩ },
        clock := .standard, entropy := ⟨fun _ => 0, 0⟩ }⟩
    let s := Command.run cipher r (.openStore .background)
    ∃ l t u w, Store.list .background "/" { limit := 1, pathsOnly := true } s = .ok l t ∧
      r.Runs s ∧ Walk.Runs ⟨l, t⟩ w ∧ Store.close w.scene = .ok () u ∧
      w.listing.released = false ∧ u.store.isOpen = false ∧
      Call.answer (next .background ⟨w.listing, u⟩) ≠ .error .iteratorInvalidated := by
  intro cipher r s
  let l : Listing := .fresh ⟨1, cipher, .empty⟩ 128 "/" { limit := 1, pathsOnly := true }
  let t := Call.after (Store.list .background "/" { limit := 1, pathsOnly := true } s)
  let w := Call.after (next .background ⟨l, t⟩)
  let u := Call.after (Store.close w.scene)
  have hlist : Store.list .background "/" { limit := 1, pathsOnly := true } s = .ok l t := rfl
  have hclose : Store.close w.scene = .ok () u := Call.eq_ok_of_answer (by
    unfold w t l s r cipher
    decide +kernel)
  have hreleased : w.listing.released = false := by
    unfold w t l s r cipher
    decide +kernel
  have hcomplete : w.listing.isComplete = true := by
    unfold w t l s r cipher
    decide +kernel
  have hclosed : u.store.isOpen = false := by
    unfold u w t l s r cipher
    decide +kernel
  have hanswer : Call.answer (next .background ⟨w.listing, u⟩) = .ok none :=
    answer_next_of_isComplete hreleased rfl hcomplete
  refine ⟨l, t, u, w, hlist, .single (.command cipher (.openStore .background)),
    .single (.next .background), hclose, hreleased, hclosed, ?_⟩
  rw [hanswer]
  simp

end Listing

end Strongbox
