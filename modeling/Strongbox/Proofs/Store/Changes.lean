import Strongbox.Proofs.Path
import Strongbox.Proofs.Store.Integrity

/-!
# What commands do

Every command has a footprint: the keys that it may bind and remove, and whether it may change
the session of its store.  It leads only to scenes to which changes of its footprint lead, so
what the footprint leaves alone, the command leaves alone.  The main statement is
`Command.leads_run`.
-/

set_option autoImplicit false

namespace Strongbox

open Call (Respects)

namespace Command

/-- The key is one that the command may bind or remove. -/
def Targets : Command → String → Prop
  | .create _ raw _ => Store.Names raw
  | .set _ raw _ _ => Store.Names raw
  | .increment _ raw => Store.Names raw
  | .delete _ raw => Store.Names raw
  | .deleteAll _ paths => fun key => ∃ raw ∈ paths, Store.Names raw key
  | _ => fun _ => False

/-- What a command may do. -/
def Footprint (c : Command) : Effect → Prop :=
  match c with
  | .openStore _ => Effect.Opens
  | .closeStore => Effect.Closes
  | .create _ _ _ => Effect.Alters c.Targets
  | .set _ _ _ _ => Effect.Alters c.Targets
  | .increment _ _ => Effect.Counts c.Targets
  | .delete _ _ => Effect.Removes c.Targets
  | .deleteAll _ _ => Effect.Removes c.Targets
  | _ => Effect.Reads

/-- Every command stays within its footprint, whatever cipher and engine are at work. -/
theorem leads_run (a : Aead) (c : Command) (s : Scene) : s.Leads c.Footprint (c.run a s) := by
  cases c with
  | openStore ctx => exact Store.leads_openWith ctx a s
  | closeStore => exact Store.leads_close s
  | create ctx raw fields => exact Store.leads_create ctx raw fields s
  | set ctx raw fields mode => exact Store.leads_set ctx raw fields mode s
  | increment ctx raw => exact Store.leads_increment ctx raw s
  | delete ctx raw => exact Store.leads_delete ctx raw s
  | deleteAll ctx paths => exact Store.leads_deleteAll ctx paths s
  | «exists» ctx raw => exact Store.leads_exists? ctx raw s
  | get ctx raw => exact Store.leads_get ctx raw s
  | getAll ctx paths => exact Store.leads_getAll ctx paths s
  | last ctx stem => exact Store.leads_last ctx stem s
  | documents ctx parent window => exact Store.leads_documents ctx parent window s
  | count ctx parent stem => exact Store.leads_count ctx parent stem s
  | collections ctx parent => exact Store.leads_collections ctx parent s

/-- Whether the command may change the store itself: it opens or closes it, or draws on the
cursor of a counter. -/
def changesStore : Command → Bool
  | .openStore _ => true
  | .closeStore => true
  | .increment _ _ => true
  | _ => false

/-- No other command changes more than what surrounds the store. -/
theorem store_run (a : Aead) {c : Command} (hc : c.changesStore = false) (s : Scene) :
    (c.run a s).store = s.store := by
  have halters : ∀ e, c.Footprint e → e.Alters c.Targets := by
    intro e he
    cases c with
    | openStore | closeStore | increment => exact absurd hc (by simp [changesStore])
    | create | set => exact he
    | delete | deleteAll => exact he.alters
    | _ => exact Effect.Reads.allowed he
  exact ((c.leads_run a s).mono halters).store_eq

/-- What a command does up to its writing only reads. -/
theorem leads_draft (c : Command) : Respects (Scene.Leads Effect.Reads) c.draft := by
  cases c with
  | create ctx raw fields =>
    exact StoreCall.leads_bind (Store.leads_createDraft ctx raw fields) fun _ =>
      StoreCall.leads_pure _
  | set ctx raw fields mode =>
    exact StoreCall.leads_bind (Store.leads_setDraft ctx raw fields mode) fun _ =>
      StoreCall.leads_pure _
  | increment ctx raw => exact Store.leads_incrementDraft ctx raw
  | _ => exact StoreCall.leads_pure none

variable {c : Command} {key : String}

/-- No command binds a key that it does not name. -/
theorem Targets.of_put (h : c.Footprint (.put key)) : c.Targets key := by
  cases c with
  | create | set | increment => exact h
  | _ => exact h.elim

/-- Nor does it remove one. -/
theorem Targets.of_delete (h : c.Footprint (.delete key)) : c.Targets key := by
  cases c with
  | create | set | delete | deleteAll => exact h
  | _ => exact h.elim

/-- What a command names are places below the root. -/
theorem Targets.isLocation (h : c.Targets key) : Path.IsLocation key := by
  have hnames : ∀ {raw}, Store.Names raw key → Path.IsLocation key := fun hraw =>
    hraw.2 ▸ Path.isLocation_normalize hraw.1
  cases c with
  | create _ raw _ => exact hnames h
  | set _ raw _ _ => exact hnames h
  | increment _ raw => exact hnames h
  | delete _ raw => exact hnames h
  | deleteAll _ paths =>
    obtain ⟨raw, -, hraw⟩ := h
    exact hnames hraw
  | _ => exact h.elim

end Command

end Strongbox
