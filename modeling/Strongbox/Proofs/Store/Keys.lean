import Strongbox.Proofs.Store.Collections
import Strongbox.Proofs.Store.Generations
import Strongbox.Proofs.Store.Ranges

/-!
# Operations that see only keys

Most operations of a store look at no stored value: they ask whether a path is there, create,
delete, count, or list paths.  What they answer, and which keys they leave, is a function of the
set of keys alone, `KeyRequest.reply`.  So two stores with other ciphers, over other engines with
other values, readable or not, cannot be told apart by them.  The main statement is
`Store.answers_eq_of_sameKeys`; `Scene.SameKeys.answers_eq` carries it over to requests in order.
-/

set_option autoImplicit false

namespace Strongbox

open Time (Instant)

/-! ## Sets of keys -/

/-- A set of keys, as the table that binds them to nothing. -/
abbrev KeySet := Table String Unit

namespace KeySet

variable {keys : KeySet} {key other : String}

/-- Key sets that contain the same keys are equal. -/
theorem eq_of_contains {first second : KeySet}
    (h : ∀ key, first.contains key = second.contains key) : first = second :=
  Table.eq_of_find? fun key => by
    have hkey := h key
    unfold Table.contains at hkey
    cases hfirst : first.find? key <;> cases hsecond : second.find? key <;> simp_all

/-- An inserted key is contained, beside those that were. -/
theorem contains_insert : (keys.insert key ()).contains other =
    (decide (other = key) || keys.contains other) := by
  unfold Table.contains
  by_cases hsame : other = key
  · simp [hsame]
  · simp [Table.find?_insert_of_ne () keys hsame, hsame]

/-- An erased key is contained no more; the others stay. -/
theorem contains_erase : (keys.erase key).contains other =
    (!decide (other = key) && keys.contains other) := by
  unfold Table.contains
  by_cases hsame : other = key
  · simp [hsame]
  · simp [Table.find?_erase_of_ne keys hsame, hsame]

end KeySet

namespace Engine

variable {e : Engine} {key : String}

/-- The keys of an engine. -/
def keySet (e : Engine) : KeySet :=
  ⟨e.paths.map fun path => (path, ()), List.pairwise_map.2 e.ascending_paths⟩

/-- The keys of an engine's key set are its paths. -/
theorem keys_keySet (e : Engine) : e.keySet.keys = e.paths := by
  simp [keySet, Table.keys, Function.comp_def]

/-- A key is in the key set exactly where the engine holds a value for it. -/
theorem contains_keySet : e.keySet.contains key = (e.value? key).isSome := by
  rw [Bool.eq_iff_iff, ← mem_paths, ← keys_keySet]
  unfold Table.contains Table.keys
  rw [Option.isSome_iff_exists, List.mem_map]
  constructor
  · rintro ⟨value, hvalue⟩
    exact ⟨(key, value), Table.mem_entries.2 hvalue, rfl⟩
  · rintro ⟨b, hb, rfl⟩
    exact ⟨b.2, Table.mem_entries.1 hb⟩

/-- The value bound to a key does not matter. -/
theorem keySet_put (e : Engine) (key : String) (value : Bytes) :
    ({ e with contents := e.contents.put key value } : Engine).keySet = e.keySet.insert key () := by
  refine KeySet.eq_of_contains fun other => ?_
  rw [KeySet.contains_insert, contains_keySet, contains_keySet]
  unfold value?
  by_cases hsame : other = key
  · simp [hsame, Contents.value?_put_self]
  · simp [Contents.value?_put_of_ne _ _ hsame, hsame]

/-- A deletion erases its key from the key set. -/
theorem keySet_of_deletes {found : Bool} {contents : Contents}
    (h : e.contents.Deletes key found contents) :
    ({ e with contents } : Engine).keySet = e.keySet.erase key := by
  refine KeySet.eq_of_contains fun other => ?_
  rw [KeySet.contains_erase, contains_keySet, contains_keySet]
  unfold value?
  by_cases hsame : other = key
  · simp [hsame, h.value?_self]
  · simp [h.value?_of_ne other hsame, hsame]

/-- Engines with the same contents have the same key set. -/
theorem keySet_congr {f : Engine} (h : f.contents = e.contents) : f.keySet = e.keySet := by
  refine KeySet.eq_of_contains fun other => ?_
  rw [contains_keySet, contains_keySet]
  unfold value?
  rw [h]

end Engine

/-- The keys of a window, of all keys of an engine. -/
def Window.keysOf (window : Window) (parent : String) (keys : List String) : List String :=
  Range.cut window.limit
    ((keys.filter (Range.begins (Path.listingRange parent window.stem))).drop window.index)

/-- The window over entries, read by keys, is the window over their keys. -/
theorem Window.map_of (window : Window) (parent : String) (es : List Entry) :
    (window.of parent es).map (·.1) = window.keysOf parent (es.map (·.1)) := by
  unfold «of» keysOf Range.cut
  rw [List.filter_map]
  split
  · rw [List.map_drop]
    rfl
  · rw [List.map_take, List.map_drop]
    rfl

/-! ## What is asked for, and what the keys answer -/

/-- A request to an open store that concerns no stored value. -/
inductive KeyRequest where
  | exists (raw : String)
  | create (raw : String) (fields : Fields)
  | delete (raw : String)
  | deleteAll (paths : List String)
  | count (parent stem : String)
  | collections (parent : String)
  /-- The documents of a window without their data. -/
  | list (parent : String) (window : Window)

/-- The answer to a request that concerns no stored value; a walk over the keys that had no end
would answer with nothing. -/
inductive KeyAnswer where
  | done
  | flag (b : Bool)
  | number (n : Option Nat)
  | collections (cs : Option (List Collection))
  | documents (ds : Option (List Document))

namespace KeyRequest

/-- The operation of a store that a request asks for. -/
def call : KeyRequest → StoreCall KeyAnswer
  | .exists raw => do
    let found ← Store.exists? .background raw
    pure (.flag found)
  | .create raw fields => do
    Store.create .background raw fields
    pure .done
  | .delete raw => do
    let removed ← Store.delete .background raw
    pure (.flag removed)
  | .deleteAll paths => do
    Store.deleteAll .background paths
    pure .done
  | .count parent stem => do
    let n ← Store.count .background parent stem
    pure (.number n)
  | .collections parent => do
    let cs ← Store.collections .background parent
    pure (.collections cs)
  | .list parent window => do
    let ds ← Store.documents .background parent { window with pathsOnly := true }
    pure (.documents ds)

/-- The same operation as a command. -/
def command : KeyRequest → Command
  | .exists raw => .exists .background raw
  | .create raw fields => .create .background raw fields
  | .delete raw => .delete .background raw
  | .deleteAll paths => .deleteAll .background paths
  | .count parent stem => .count .background parent stem
  | .collections parent => .collections .background parent
  | .list parent window => .documents .background parent { window with pathsOnly := true }

/-- What the request wants written at a time is short enough to be encrypted: no more than
2 ^ 48 octets. -/
def Fits (time : Instant) : KeyRequest → Prop
  | .create raw fields => Stream.Fits (Record.toBytes ⟨Path.normalize raw, fields, time, time⟩)
  | _ => True

/-- Serves a request for a path other than the root. -/
def whenWritable (raw : String) (keys : KeySet) (x : Except StoreError KeyAnswer × KeySet) :
    Except StoreError KeyAnswer × KeySet :=
  if Path.isRoot raw then (.error (.invalidPath (Path.normalize raw) StoreCall.rootReason), keys)
  else x

/-- Removes the given paths in order, up to the first that is the root. -/
def deleteEach : List String → KeySet → Except StoreError KeyAnswer × KeySet
  | [], keys => (.ok .done, keys)
  | raw :: rest, keys => whenWritable raw keys (deleteEach rest (keys.erase (Path.normalize raw)))

/-- The answer to a request at a time, and the keys after it. -/
def reply (time : Instant) (keys : KeySet) : KeyRequest → Except StoreError KeyAnswer × KeySet
  | .exists raw => (.ok (.flag (keys.contains (Path.normalize raw))), keys)
  | .create raw fields =>
    let path := Path.normalize raw
    whenWritable raw keys <|
      if keys.contains path then (.error (.pathExists path), keys)
      else if Stream.Fits (Record.toBytes ⟨path, fields, time, time⟩) then
        (.ok .done, keys.insert path ())
      else (.error (.encryption path (.encryption Stream.refusal)), keys)
  | .delete raw =>
    let path := Path.normalize raw
    whenWritable raw keys (.ok (.flag (keys.contains path)), keys.erase path)
  | .deleteAll paths => deleteEach paths keys
  | .count parent stem =>
    (.ok (.number (some (Window.keysOf { stem } parent keys.keys).length)), keys)
  | .collections parent =>
    if Path.isRoot parent then
      let names := Store.addNames [] (keys.keys.filter (Range.begins Path.root))
      (.ok (.collections (some (names.reverse.map fun name => ⟨Path.join [name]⟩))), keys)
    else (.error (.nestedCollections parent), keys)
  | .list parent window =>
    (.ok (.documents (some ((window.keysOf parent keys.keys).map fun key =>
      { path := Path.normalize key, fields := [], createdAt := none, updatedAt := none }))), keys)

/-- The time matters only to whether a new record fits. -/
theorem reply_congr {r : KeyRequest} {time other : Instant} (h : r.Fits time ↔ r.Fits other)
    (keys : KeySet) : r.reply time keys = r.reply other keys := by
  cases r with
  | create raw fields =>
    unfold Fits at h
    simp only [reply, h]
  | _ => rfl

/-- The answers of a store to requests in order. -/
def answers : List KeyRequest → Scene → List (Except StoreError KeyAnswer)
  | [], _ => []
  | r :: rest, s => Call.answer (r.call s) :: answers rest (Call.after (r.call s))

end KeyRequest

/-! ## What a store answers -/

namespace Scene

/-- The time that the clock shows next. -/
def time (s : Scene) : Instant := s.ambient.clock.read.1

/-- The stored keys. -/
def keys (s : Scene) : KeySet := s.ambient.engine.keySet

/-- The store is open, with a cipher that decrypts what it encrypted, over an engine that answers
every call and whose keys are text.  Nothing is said of the stored values. -/
structure IsServing (s : Scene) : Prop where
  isOpen : ∃ session, s.store.session = some session ∧ session.cipher.Lawful
  isSteady : s.ambient.engine.IsSteady

/-- Two stores serve with the same keys stored.  Their ciphers, the sizes of their pages, the
kinds of their engines, and the stored values may be any. -/
structure SameKeys (s t : Scene) : Prop where
  left : s.IsServing
  right : t.IsServing
  isSome_value? : ∀ key,
    (s.ambient.engine.value? key).isSome = (t.ambient.engine.value? key).isSome

variable {s t : Scene}

/-- Scenes with the same keys have equal key sets. -/
theorem SameKeys.keys_eq (h : s.SameKeys t) : s.keys = t.keys :=
  KeySet.eq_of_contains fun key =>
    Engine.contains_keySet.trans ((h.isSome_value? key).trans Engine.contains_keySet.symm)

/-- Serving scenes with equal key sets have the same keys. -/
theorem SameKeys.of_keys (hs : s.IsServing) (ht : t.IsServing) (h : s.keys = t.keys) :
    s.SameKeys t := by
  refine ⟨hs, ht, fun key => ?_⟩
  have hcontains : s.keys.contains key = t.keys.contains key := by rw [h]
  exact Engine.contains_keySet.symm.trans (hcontains.trans Engine.contains_keySet)

/-- A store that is not opened or closed goes on serving. -/
theorem IsServing.of_leads {P : Effect → Prop} (h : s.IsServing) (hstore : t.store = s.store)
    (hleads : s.Leads P t) : t.IsServing := by
  refine ⟨?_, hleads.isSteady h.isSteady⟩
  rw [hstore]
  exact h.isOpen

end Scene

/-- The call answers and leaves the keys as told. -/
structure Replies {α : Type} (wrap : α → KeyAnswer) (r : EStateM.Result StoreError Scene α)
    (x : Except StoreError KeyAnswer × KeySet) : Prop where
  answer : (Call.answer r).map wrap = x.1
  keys : (Call.after r).keys = x.2

namespace Replies

open StoreCall

variable {α : Type} {wrap : α → KeyAnswer} {s : Scene}

/-- An operation that keeps the contents leaves the keys. -/
theorem of_keeps {call : StoreCall α} {x : Except StoreError KeyAnswer}
    (hkeeps : Call.Respects Scene.Keeps call) (hanswer : (Call.answer (call s)).map wrap = x) :
    Replies wrap (call s) (x, s.keys) :=
  ⟨hanswer, Engine.keySet_congr (hkeeps s).contents⟩

/-- An operation that needs a path other than the root. -/
theorem writable {raw : String} {f : String → StoreCall α}
    {x : Except StoreError KeyAnswer × KeySet} (hf : Replies wrap (f (Path.normalize raw) s) x) :
    Replies wrap ((StoreCall.writable raw >>= f) s) (KeyRequest.whenWritable raw s.keys x) := by
  unfold KeyRequest.whenWritable
  split
  · rename_i hroot
    rw [Call.bind_error (writable_of_isRoot hroot s)]
    exact ⟨rfl, rfl⟩
  · rename_i hroot
    rw [Call.bind_ok (writable_of_not_isRoot hroot s)]
    exact hf

/-- What goes on behind an operation with the same answer, and leaves the keys. -/
theorem bind {β : Type} {wrap' : β → KeyAnswer} {call : StoreCall α} {f : α → StoreCall β}
    {x : Except StoreError KeyAnswer × KeySet} (h : Replies wrap (call s) x)
    (hf : ∀ y t, ∃ z u, f y t = .ok z u ∧ wrap' z = wrap y ∧ u.keys = t.keys) :
    Replies wrap' ((call >>= f) s) x := by
  cases hrun : call s with
  | ok y t =>
    obtain ⟨z, u, hnext, hz, hu⟩ := hf y t
    rw [hrun] at h
    rw [Call.bind_ok hrun, hnext]
    exact ⟨(congrArg Except.ok hz).trans h.answer, hu.trans h.keys⟩
  | error e t =>
    rw [hrun] at h
    rw [Call.bind_error hrun]
    exact ⟨h.answer, h.keys⟩

/-- Telling of an operation changes nothing. -/
theorem tell {call : StoreCall α} {x : Except StoreError KeyAnswer × KeySet}
    (h : Replies (fun _ => .done) (call s) x) (e : α → Event) :
    Replies (fun _ => .done) ((call >>= fun y => StoreCall.tell (e y)) s) x :=
  h.bind fun y t => ⟨(), t.tell (e y), rfl, rfl, rfl⟩

/-- Wrapping a call's value carries its reply over. -/
theorem wrapped {call : StoreCall α} {x : Except StoreError KeyAnswer × KeySet}
    (h : Replies wrap (call s) x) : Replies id ((call >>= fun y => pure (wrap y)) s) x :=
  h.bind fun y t => ⟨wrap y, t, rfl, rfl, rfl⟩

end Replies

/-- Wrapping a call's value leaves the state after it unchanged. -/
theorem Call.after_wrapped {ε σ α β : Type} (x : EStateM ε σ α) (wrap : α → β) (s : σ) :
    after ((x >>= fun y => pure (wrap y)) s) = after (x s) := by
  cases hrun : x s with
  | ok y t =>
    rw [bind_ok hrun]
    rfl
  | error e t =>
    rw [bind_error hrun]
    rfl

/-- What is listed are the keys of the window. -/
theorem Scene.map_window (window : Window) (parent : String) (s : Scene) :
    (window.of parent s.ambient.engine.contents.entries).map (·.1) =
      window.keysOf parent s.keys.keys := by
  unfold keys
  rw [Engine.keys_keySet, Window.map_of]
  rfl

namespace Scene.IsServing

open StoreCall Call

variable {s : Scene} (h : s.IsServing)

include h

section Chains

variable {α : Type} {wrap : α → KeyAnswer} {x : Except StoreError KeyAnswer × KeySet}

/-- Behind the boundary of an operation the store serves as before. -/
theorem replies_boundary {f : Unit → StoreCall α}
    (hf : ∀ t, t.IsServing → t.keys = s.keys → t.time = s.time → Replies wrap (f () t) x) :
    Replies wrap ((boundary .background >>= f) s) x := by
  have hrun : boundary .background s = .ok () { s with ambient :=
      { s.ambient with boundaries := s.ambient.boundaries + 1 } } := rfl
  rw [bind_ok hrun]
  exact hf _ ⟨h.isOpen, h.isSteady⟩ rfl rfl

/-- A serving scene replies to what follows the opening of its session. -/
theorem replies_openSession {f : Session → StoreCall α}
    (hf : ∀ session : Session, session.cipher.Lawful → Replies wrap (f session s) x) :
    Replies wrap ((openSession >>= f) s) x := by
  obtain ⟨session, hopen, hlawful⟩ := h.isOpen
  rw [bind_ok (openSession_of_isOpen hopen)]
  exact hf session hlawful

end Chains

/-- The presence check answers by the key set and changes nothing. -/
theorem run_exists? (path : String) :
    onBarrier path (Barrier.exists? path) s = .ok (s.keys.contains path) s := by
  unfold keys
  rw [Engine.contains_keySet]
  exact onBarrier_ok (Barrier.onEngine_ok (h.isSteady.isHealthy.exists? path))

/-- A deletion answers by the key set and erases the key. -/
theorem run_delete (path : String) :
    ∃ t, onBarrier path (Barrier.delete path) s = .ok (s.keys.contains path) t ∧ t.IsServing ∧
      t.keys = s.keys.erase path := by
  obtain ⟨contents, hspec, hdelete⟩ := h.isSteady.isHealthy.delete path
  have hrun : onBarrier path (Barrier.delete path) s = _ :=
    onBarrier_ok (Barrier.onEngine_ok hdelete)
  have hcall : Respects (Scene.Leads (Effect.Alters fun key => key = path))
      (onBarrier path (Barrier.delete path)) := leads_onBarrier (Barrier.leads_delete path rfl)
  have hleads := hcall.ok hrun
  refine ⟨_, ?_, h.of_leads hleads.store_eq hleads, Engine.keySet_of_deletes hspec⟩
  unfold keys
  rw [Engine.contains_keySet]
  exact hrun

/-! ### The operations in turn -/

/-- `exists?` replies as the key set does. -/
theorem replies_exists? (raw : String) :
    Replies .flag (Store.exists? .background raw s)
      ((KeyRequest.exists raw).reply s.time s.keys) := by
  refine h.replies_boundary fun t ht hkeys _ => ht.replies_openSession fun _ _ => ?_
  rw [ht.run_exists?, hkeys]
  exact ⟨rfl, hkeys⟩

/-- `delete` replies as the key set does. -/
theorem replies_delete (raw : String) :
    Replies .flag (Store.delete .background raw s)
      ((KeyRequest.delete raw).reply s.time s.keys) := by
  refine h.replies_boundary fun t ht hkeys _ => ?_
  rw [← hkeys]
  refine .writable (ht.replies_openSession fun _ _ => ?_)
  obtain ⟨u, hrun, -, hremoved⟩ := ht.run_delete (Path.normalize raw)
  rw [bind_ok hrun]
  exact ⟨rfl, hremoved⟩

/-- The paths of a batch are removed in order, up to the first that is the root. -/
theorem replies_deleteEach (paths : List String) (removed : Nat) :
    Replies (fun _ => .done) (Store.deleteEach .background removed paths s)
      (KeyRequest.deleteEach paths s.keys) := by
  induction paths generalizing s removed with
  | nil => exact ⟨rfl, rfl⟩
  | cons raw rest ih =>
    refine h.replies_boundary fun t ht hkeys _ => ?_
    rw [← hkeys]
    refine .writable ?_
    obtain ⟨u, hrun, hu, hremoved⟩ := ht.run_delete (Path.normalize raw)
    rw [bind_ok hrun, ← hremoved]
    exact ih hu _

/-- `deleteAll` replies as the key set does. -/
theorem replies_deleteAll (paths : List String) :
    Replies (fun _ => .done) (Store.deleteAll .background paths s)
      ((KeyRequest.deleteAll paths).reply s.time s.keys) := by
  refine h.replies_boundary fun t ht hkeys _ => ht.replies_openSession fun _ _ => ?_
  rw [← hkeys]
  exact (ht.replies_deleteEach paths 0).tell _

/-- A document is created where no key is, unless its record is too long. -/
theorem replies_create (raw : String) (fields : Fields) :
    Replies (fun _ => .done) (Store.create .background raw fields s)
      ((KeyRequest.create raw fields).reply s.time s.keys) := by
  refine h.replies_boundary fun t ht hkeys htime => ?_
  rw [← hkeys, ← htime]
  refine .writable (ht.replies_openSession fun session hlawful => ?_)
  rw [bind_ok (ht.run_exists? _)]
  split
  · exact ⟨rfl, rfl⟩
  · have hnow : now t = .ok t.time
        { t with ambient := { t.ambient with clock := t.ambient.clock.read.2 } } := rfl
    rw [bind_ok hnow]
    refine Replies.tell ?_ _
    rcases writeRecord_of_isHealthy hlawful (s := { t with ambient :=
      { t.ambient with clock := t.ambient.clock.read.2 } }) ht.isSteady.isHealthy
      ⟨Path.normalize raw, fields, t.time, t.time⟩ with ⟨hfits, c, -, hrun⟩ | ⟨hfits, hrun⟩
    · rw [if_pos hfits, hrun]
      exact ⟨rfl, Engine.keySet_put t.ambient.engine (Path.normalize raw) c⟩
    · rw [if_neg hfits, hrun]
      exact ⟨rfl, rfl⟩

/-- `count` replies as the key set does. -/
theorem replies_count (parent stem : String) :
    Replies .number (Store.count .background parent stem s)
      ((KeyRequest.count parent stem).reply s.time s.keys) := by
  obtain ⟨session, hopen, -⟩ := h.isOpen
  refine .of_keeps (Store.leads_count .background parent stem).keeps ?_
  rw [Store.answer_count hopen h.isSteady.isHealthy h.isSteady.hasTextKeys, ← Scene.map_window,
    List.length_map]
  rfl

/-- A listing of paths replies as the key set does. -/
theorem replies_documents (parent : String) (window : Window) :
    Replies .documents
      (Store.documents .background parent { window with pathsOnly := true } s)
      ((KeyRequest.list parent window).reply s.time s.keys) := by
  obtain ⟨session, hopen, -⟩ := h.isOpen
  refine .of_keeps (Store.leads_documents .background parent _).keeps ?_
  rw [Store.answer_documents hopen h.isSteady.isHealthy h.isSteady.hasTextKeys, if_pos rfl,
    ← Scene.map_window, List.map_map]
  rfl

/-- The walk over all keys meets those below the root. -/
theorem replies_collections (parent : String) :
    Replies .collections (Store.collections .background parent s)
      ((KeyRequest.collections parent).reply s.time s.keys) := by
  obtain ⟨session, hopen, -⟩ := h.isOpen
  by_cases hparent : Path.isRoot parent = true
  · have hahead : (s.ambient.engine.contents.ahead Path.root none).map (·.1) =
        s.keys.keys.filter (Range.begins Path.root) := by
      unfold keys
      rw [Engine.keys_keySet]
      simp [Contents.ahead, Range.ahead, LogDirectory.isSeen, Engine.paths, List.filter_map,
        Function.comp_def]
    simp only [KeyRequest.reply, hparent, if_true]
    refine .of_keeps (Store.leads_collections .background parent).keeps ?_
    rw [Store.answer_collections h.isSteady.isHealthy h.isSteady.hasTextKeys hopen hparent, hahead]
    rfl
  · simp only [KeyRequest.reply, hparent]
    refine h.replies_boundary fun t _ hkeys _ => ?_
    simp only [Bool.eq_false_iff.2 hparent]
    exact ⟨rfl, hkeys⟩

/-! ### All of them -/

/-- Every request is answered, and leaves the keys, as the keys alone tell. -/
theorem replies_call (r : KeyRequest) : Replies id (r.call s) (r.reply s.time s.keys) := by
  cases r with
  | «exists» raw => exact (h.replies_exists? raw).wrapped
  | create raw fields => exact (h.replies_create raw fields).wrapped
  | delete raw => exact (h.replies_delete raw).wrapped
  | deleteAll paths => exact (h.replies_deleteAll paths).wrapped
  | count parent stem => exact (h.replies_count parent stem).wrapped
  | collections parent => exact (h.replies_collections parent).wrapped
  | list parent window => exact (h.replies_documents parent window).wrapped

/-- And the store goes on serving. -/
theorem after_call (r : KeyRequest) : (after (r.call s)).IsServing := by
  obtain ⟨session, -⟩ := h.isOpen
  have hcommand : after (r.call s) = r.command.run session.cipher s := by
    cases r <;> exact after_wrapped _ _ s
  have hstore : r.command.changesStore = false := by
    cases r <;> rfl
  rw [hcommand]
  exact h.of_leads (Command.store_run _ hstore s) (r.command.leads_run _ s)

end Scene.IsServing

namespace Scene.SameKeys

variable {s t : Scene} (h : s.SameKeys t)

include h

/-- Stores with the same keys answer alike, and have the same keys afterwards. -/
theorem step {r : KeyRequest} (hfits : r.Fits s.time ↔ r.Fits t.time) :
    Call.answer (r.call s) = Call.answer (r.call t) ∧
      (Call.after (r.call s)).SameKeys (Call.after (r.call t)) := by
  have hs := h.left.replies_call r
  have ht := h.right.replies_call r
  rw [← h.keys_eq, ← KeyRequest.reply_congr hfits] at ht
  constructor
  · simpa using hs.answer.trans ht.answer.symm
  · exact .of_keys (h.left.after_call r) (h.right.after_call r) (hs.keys.trans ht.keys.symm)

/-- They answer alike for as long as they are asked, whatever their clocks show. -/
theorem answers_eq {requests : List KeyRequest} (hfits : ∀ r ∈ requests, ∀ time, r.Fits time) :
    KeyRequest.answers requests s = KeyRequest.answers requests t := by
  induction requests generalizing s t with
  | nil => rfl
  | cons r rest ih =>
    obtain ⟨hfirst, hrest⟩ := List.forall_mem_cons.1 hfits
    obtain ⟨hanswer, hsame⟩ := h.step (iff_of_true (hfirst s.time) (hfirst t.time))
    unfold KeyRequest.answers
    rw [hanswer, ih hsame hrest]

end Scene.SameKeys

namespace Store

/-- The store refuses to create a document because one is there. -/
def Refuses (s : Scene) (raw : String) (fields : Fields) : Prop :=
  ∃ path, Call.answer (create .background raw fields s) = .error (.pathExists path)

section Serving

variable {s : Scene} (h : s.IsServing)

include h

/-- `exists?` answers whether the normalized path is a key. -/
theorem answer_exists? (raw : String) :
    Call.answer (exists? .background raw s) = .ok (s.keys.contains (Path.normalize raw)) := by
  have hanswer := (h.replies_exists? raw).answer
  generalize Call.answer (exists? .background raw s) = x at hanswer ⊢
  cases x with
  | ok found => simpa [KeyRequest.reply, Except.map] using hanswer
  | error e => simp [KeyRequest.reply, Except.map] at hanswer

/-- Nothing is got where no key is; an entry that cannot be read is something. -/
theorem answer_get_eq_none_iff (raw : String) :
    Call.answer (get .background raw s) = .ok none ↔
      Call.answer (exists? .background raw s) = .ok false := by
  obtain ⟨session, hopen, -⟩ := h.isOpen
  have hcontains : s.keys.contains (Path.normalize raw) = _ := Engine.contains_keySet
  rw [answer_get hopen h.isSteady.isHealthy, answer_exists? h, hcontains]
  cases s.ambient.engine.value? (Path.normalize raw) with
  | none => exact iff_of_true rfl rfl
  | some c =>
    refine iff_of_false ?_ (by simp)
    dsimp only
    cases Entry.read session.cipher (Path.normalize raw, c) <;> simp [Except.map]

/-- A `create` is refused exactly where the path is not the root and its key is present. -/
theorem refuses_iff (raw : String) (fields : Fields) :
    Refuses s raw fields ↔
      Path.isRoot raw = false ∧ s.keys.contains (Path.normalize raw) = true := by
  have hanswer := (h.replies_create raw fields).answer
  unfold Refuses
  generalize Call.answer (create .background raw fields s) = x at hanswer ⊢
  simp only [KeyRequest.reply, KeyRequest.whenWritable] at hanswer
  cases x <;> split_ifs at hanswer <;> simp_all [Except.map]

end Serving

/-- Two stores serve with the same keys stored, whatever the values are.  What concerns no value
they answer alike, and they have the same keys again afterwards, unless a new record is too long
at the time that the one clock shows and not at that of the other.  Even then they both refuse to
create a document because of one that is there, or neither does.  In each of them nothing is got
at a path exactly if no document is there, and one is refused below the root exactly if one is. -/
theorem answers_eq_of_sameKeys {s t : Scene} (h : s.SameKeys t) :
    (∀ r : KeyRequest, (r.Fits s.time ↔ r.Fits t.time) →
      Call.answer (r.call s) = Call.answer (r.call t) ∧
        (Call.after (r.call s)).SameKeys (Call.after (r.call t))) ∧
    (∀ raw fields, Refuses s raw fields ↔ Refuses t raw fields) ∧
    ∀ u, u = s ∨ u = t → ∀ raw,
      (Call.answer (get .background raw u) = .ok none ↔
        Call.answer (exists? .background raw u) = .ok false) ∧
      (Path.isRoot raw = false → ∀ fields,
        Refuses u raw fields ↔ Call.answer (exists? .background raw u) = .ok true) := by
  refine ⟨fun r => h.step, fun raw fields => ?_, fun u hu raw => ?_⟩
  · rw [refuses_iff h.left, refuses_iff h.right, h.keys_eq]
  · have hserving : u.IsServing := by
      rcases hu with rfl | rfl
      · exact h.left
      · exact h.right
    refine ⟨answer_get_eq_none_iff hserving raw, fun hroot fields => ?_⟩
    rw [refuses_iff hserving, answer_exists? hserving]
    simp [hroot]

/-- Two stores with other ciphers, pages and engines, over two keys whose values cannot be read:
a document is found at each key and created at neither. -/
theorem answers_of_unreadable_values :
    let session (b : UInt8) : Session := ⟨1, (Key.uniform b).cipher, .empty⟩
    let s : Scene :=
      ⟨{ config := { Config.standard with pageSize := 0 }, session := some (session 7) },
        { engine := { contents := .volatile ⟨[("/a", []), ("/b", [1])], by decide⟩ },
          clock := .standard, entropy := ⟨fun _ => 0, 0⟩ }⟩
    let t : Scene :=
      ⟨{ config := Config.standard, session := some (session 9) },
        { engine := { contents := .treeFile ⟨[("/a", [2, 3]), ("/b", [])], by decide⟩ },
          clock := .ticking 0, entropy := ⟨fun _ => 1, 0⟩ }⟩
    s.SameKeys t ∧
      (∀ r ∈ [KeyRequest.delete "a/", .list "" {}, .create "c" []],
        Call.answer (r.call s) = Call.answer (r.call t) ∧
          (Call.after (r.call s)).SameKeys (Call.after (r.call t))) ∧
      Refuses t "b" [] ∧ Call.answer (get .background "b" t) ≠ .ok none := by
  intro session s t
  have hs : s.IsServing :=
    ⟨⟨session 7, rfl, (Key.uniform 7).lawful_cipher⟩, ⟨.inl rfl, rfl, trivial⟩, trivial⟩
  have ht : t.IsServing :=
    ⟨⟨session 9, rfl, (Key.uniform 9).lawful_cipher⟩, ⟨.inl rfl, rfl, trivial⟩, trivial⟩
  have hsame : s.SameKeys t := .of_keys hs ht rfl
  obtain ⟨hanswers, -, hthere⟩ := answers_eq_of_sameKeys hsame
  obtain ⟨hget, hrefuses⟩ := hthere t (.inr rfl) "b"
  have hexists : Call.answer (exists? .background "b" t) = .ok true := rfl
  refine ⟨hsame, fun r hr => hanswers r ?_, (hrefuses (by decide) []).2 hexists, ?_⟩
  · have hfits : Stream.Fits (Record.toBytes ⟨"/c", [], s.time, s.time⟩) ∧
        Stream.Fits (Record.toBytes ⟨"/c", [], t.time, t.time⟩) := by decide +kernel
    simp only [List.mem_cons, List.not_mem_nil, or_false] at hr
    rcases hr with rfl | rfl | rfl
    · exact iff_of_true trivial trivial
    · exact iff_of_true trivial trivial
    · exact iff_of_true hfits.1 hfits.2
  · rw [ne_eq, hget, hexists]
    simp

end Store

end Strongbox
