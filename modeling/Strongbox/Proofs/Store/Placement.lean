import Strongbox.Proofs.Store.Listing
import Strongbox.Proofs.Store.Changes

/-!
# Where documents are placed

A store binds and removes only keys that its operations name, and what they name is a normalized
path below the root.  So the other keys keep their values, and over an engine that was empty at
first every key is a place where a document can lie.  The main statements are
`Command.value?_run` and `Fleet.Runs.isPlaced`.
-/

set_option autoImplicit false

namespace Strongbox

/-- A command leaves every key that it does not name as it is, whatever cipher and engine are at
work. -/
theorem Command.value?_run (a : Aead) {c : Command} {key : String} (h : ¬ c.Targets key)
    (s : Scene) : (c.run a s).ambient.engine.value? key = s.ambient.engine.value? key :=
  (c.leads_run a s).value?_eq (fun hput => h (.of_put hput)) fun hdelete => h (.of_delete hdelete)

/-! ## Runs of stores over one engine -/

/-- The engine answers every call, and its keys are texts that name places for documents. -/
structure Engine.IsPlaced (e : Engine) : Prop where
  isSteady : e.IsSteady
  isLocation : ∀ key, (e.value? key).isSome → Path.IsLocation key

/-- An empty engine has no keys at all. -/
theorem Engine.isPlaced_of_size {e : Engine} (h : e.IsHealthy) (hsize : e.contents.size = 0) :
    e.IsPlaced := by
  refine ⟨⟨h, Contents.hasTextKeys_of_size hsize⟩, fun key hkey => ?_⟩
  rw [Engine.value?, Contents.value?_of_size hsize] at hkey
  exact absurd hkey (by simp)

/-- What binds only places for documents leaves no other keys. -/
theorem Engine.IsPlaced.of_leads {P : Effect → Prop} {s t : Scene}
    (hs : s.ambient.engine.IsPlaced) (h : s.Leads P t)
    (hput : ∀ key, P (.put key) → Path.IsLocation key)
    (hdelete : ∀ key, P (.delete key) → Path.IsLocation key) : t.ambient.engine.IsPlaced := by
  refine ⟨h.isSteady hs.isSteady, fun key hkey => ?_⟩
  by_cases hplace : Path.IsLocation key
  · exact hplace
  · rw [h.value?_eq (fun hP => hplace (hput key hP)) fun hP => hplace (hdelete key hP)] at hkey
    exact hs.isLocation key hkey

/-- What only reads leaves no other keys either. -/
theorem Engine.IsPlaced.of_reads {s t : Scene} (hs : s.ambient.engine.IsPlaced)
    (h : s.Leads Effect.Reads t) : t.ambient.engine.IsPlaced :=
  hs.of_leads h (fun _ hput => hput.elim) fun _ hdelete => hdelete.elim

namespace Fleet

/-- What a store of a fleet can be told: a command, with any cipher where it opens, the start of a
listing, or a step of one.  Between such operations it can also be lost, and then a new one with
any settings takes its place; an operation is never cut short. -/
inductive Acts (f : Fleet) : Fleet → Prop
  | command (a : Aead) (i : Nat) (c : Command) : Acts f (f.withScene i (c.run a (f.scene i)))
  | list (i : Nat) (ctx : Context) (parent : String) (window : Window) :
    Acts f (f.withScene i (Call.after (Store.list ctx parent window (f.scene i))))
  | next (i : Nat) (ctx : Context) (l : Listing) :
    Acts f (f.withScene i (Call.after (Listing.next ctx ⟨l, f.scene i⟩)).scene)
  | loseStore (i : Nat) (config : Config) : Acts f (f.withScene i ⟨.new config, f.ambient⟩)

/-- A run of the stores of a fleet. -/
def Runs : Fleet → Fleet → Prop := Relation.ReflTransGen Acts

/-- Whatever a store is told, every key remains a place for a document. -/
theorem Acts.isPlaced {f g : Fleet} (h : f.Acts g) (hf : f.ambient.engine.IsPlaced) :
    g.ambient.engine.IsPlaced := by
  cases h with
  | command a i c =>
    exact Engine.IsPlaced.of_leads (s := f.scene i) hf (c.leads_run a _)
      (fun _ hput => (Command.Targets.of_put hput).isLocation)
      fun _ hdelete => (Command.Targets.of_delete hdelete).isLocation
  | list i ctx parent window =>
    exact Engine.IsPlaced.of_reads (s := f.scene i) hf (Store.leads_list ctx parent window _)
  | next i ctx l =>
    exact Engine.IsPlaced.of_reads (s := f.scene i) hf (Listing.keeps_next ctx ⟨l, f.scene i⟩).leads
  | loseStore i config => exact hf

/-- Over an engine that is empty at first, every key is a place for a document. -/
theorem Runs.isPlaced {f g : Fleet} (h : f.Runs g) (hhealthy : f.ambient.engine.IsHealthy)
    (hsize : f.ambient.engine.contents.size = 0) : g.ambient.engine.IsPlaced := by
  induction h with
  | refl => exact Engine.isPlaced_of_size hhealthy hsize
  | tail _ hacts ih => exact hacts.isPlaced ih

end Fleet

end Strongbox
