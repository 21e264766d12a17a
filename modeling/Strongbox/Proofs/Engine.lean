import Strongbox.Engine.Basic
import Strongbox.Proofs.Call
import Strongbox.Proofs.Text.Utf8

/-!
# Engines as maps

An engine of any kind is a map from keys to values.  A call either answers from that map,
or fails and leaves it as it was; on a healthy engine, whose calls cannot fail, it always
answers.
-/

set_option autoImplicit false

namespace Strongbox

/-! ## Contents as a map -/

namespace Contents

/-- The value that is bound to a key, whether or not it can be read. -/
def value? (c : Contents) (key : String) : Option Bytes :=
  match c with
  | .volatile t => t.find? key
  | .treeFile t => t.find? key
  | .logDirectory d => d.entries.find? (Utf8.encode key)

/-- No part of the contents is damaged. -/
def IsWhole (c : Contents) : Prop :=
  match c with
  | .volatile _ => True
  | .treeFile _ => True
  | .logDirectory d => ∀ r ∈ d.runs, r.isDamaged = false

/-- Where nothing is stored, no key is bound. -/
theorem value?_of_size {c : Contents} (h : c.size = 0) (key : String) : c.value? key = none := by
  cases c with
  | volatile t =>
    show Bindings.find? key t.entries = none
    rw [List.length_eq_zero_iff.1 h]
    rfl
  | treeFile t =>
    show Bindings.find? key t.entries = none
    rw [List.length_eq_zero_iff.1 h]
    rfl
  | logDirectory d =>
    show Bindings.find? (Utf8.encode key) d.entries.entries = none
    rw [List.length_eq_zero_iff.1 h]
    rfl

/-- A key that was bound is found with its value. -/
theorem value?_put_self (c : Contents) (key : String) (value : Bytes) :
    (c.put key value).value? key = some value := by
  cases c with
  | volatile t => exact Table.find?_insert_self key value t
  | treeFile t => exact Table.find?_insert_self key value t
  | logDirectory d => exact Table.find?_insert_self (Utf8.encode key) value d.entries

/-- Other keys are found as before. -/
theorem value?_put_of_ne (c : Contents) {key other : String} (value : Bytes) (h : other ≠ key) :
    (c.put key value).value? other = c.value? other := by
  cases c with
  | volatile t => exact Table.find?_insert_of_ne value t h
  | treeFile t => exact Table.find?_insert_of_ne value t h
  | logDirectory d =>
    exact Table.find?_insert_of_ne value d.entries fun hsame => h (Utf8.encode_injective hsame)

/-- Binding a key damages nothing. -/
theorem IsWhole.put {c : Contents} (h : c.IsWhole) (key : String) (value : Bytes) :
    (c.put key value).IsWhole := by
  cases c with
  | volatile t => trivial
  | treeFile t => trivial
  | logDirectory d => exact h

/-- Undamaged runs stop no read. -/
theorem isBlockedIn_of_isWhole {runs : List Run} (h : ∀ r ∈ runs, r.isDamaged = false)
    (key : Bytes) : LogDirectory.isBlockedIn key runs = false := by
  induction runs with
  | nil => rfl
  | cons r older ih =>
    unfold LogDirectory.isBlockedIn
    rw [h r List.mem_cons_self, ih fun r hr => h r (List.mem_cons_of_mem _ hr)]
    rfl

/-- In a log without damage every key is looked up as it is bound. -/
theorem lookup_of_isWhole {d : LogDirectory} (h : (logDirectory d).IsWhole)
    (kind : StorageError.Kind) (key : String) :
    d.lookup kind key = .ok (d.entries.find? (Utf8.encode key)) := by
  unfold LogDirectory.lookup LogDirectory.isBlocked
  dsimp only
  rw [isBlockedIn_of_isWhole h, Bool.false_and, if_neg Bool.false_ne_true]

/-- Without damage every key is read as it is bound. -/
theorem get_of_isWhole {c : Contents} (h : c.IsWhole) (key : String) :
    c.get key = .ok (c.value? key) := by
  cases c with
  | volatile t => rfl
  | treeFile t => rfl
  | logDirectory d => exact lookup_of_isWhole h .reading key

/-- Without damage a key exists exactly if it is bound. -/
theorem exists?_of_isWhole {c : Contents} (h : c.IsWhole) (key : String) :
    c.exists? key = .ok (c.value? key).isSome := by
  cases c with
  | volatile t => rfl
  | treeFile t => rfl
  | logDirectory d =>
    unfold exists?
    dsimp only
    rw [lookup_of_isWhole h]
    rfl

/-- A key that is looked up at all is found as it is bound. -/
theorem lookup_eq_ok {d : LogDirectory} {kind : StorageError.Kind} {key : String}
    {value : Option Bytes} (h : d.lookup kind key = .ok value) :
    d.entries.find? (Utf8.encode key) = value := by
  unfold LogDirectory.lookup at h
  dsimp only at h
  split at h
  · exact absurd h (by simp)
  · injection h

/-- A key is read as it is bound, unless the read fails. -/
theorem get_eq_ok {c : Contents} {key : String} {value : Option Bytes}
    (h : c.get key = .ok value) : c.value? key = value := by
  cases c with
  | volatile t =>
    injection h
  | treeFile t =>
    injection h
  | logDirectory d => exact lookup_eq_ok h

/-- What a deletion does, unless it fails. -/
structure Deletes (c : Contents) (key : String) (found : Bool) (after : Contents) : Prop where
  found_eq : found = (c.value? key).isSome
  value?_self : after.value? key = none
  value?_of_ne : ∀ other, other ≠ key → after.value? other = c.value? other
  isWhole : c.IsWhole → after.IsWhole
  usesWorkers : after.usesWorkers = c.usesWorkers

/-- A deletion that succeeds removes the key and nothing else. -/
theorem deletes_of_delete {c : Contents} {key : String} {found : Bool} {after : Contents}
    (h : c.delete key = .ok (found, after)) : c.Deletes key found after := by
  cases c with
  | volatile t =>
    injection h with h
    injection h with hfound hafter
    subst hfound hafter
    exact ⟨rfl, Table.find?_erase_self key t, fun _ hne => Table.find?_erase_of_ne t hne,
      fun _ => trivial, rfl⟩
  | treeFile t =>
    injection h with h
    injection h with hfound hafter
    subst hfound hafter
    exact ⟨rfl, Table.find?_erase_self key t, fun _ hne => Table.find?_erase_of_ne t hne,
      fun _ => trivial, rfl⟩
  | logDirectory d =>
    unfold delete LogDirectory.delete at h
    dsimp only at h
    cases hlookup : d.lookup .deleting key with
    | error e =>
      rw [hlookup] at h
      exact absurd h (by simp [Except.map])
    | ok value =>
      have hvalue : (logDirectory d).value? key = value := lookup_eq_ok hlookup
      rw [hlookup] at h
      cases value with
      | none =>
        injection h with h
        injection h with hfound hafter
        subst hfound hafter
        exact ⟨by rw [hvalue]; rfl, hvalue, fun _ _ => rfl, fun hwhole => hwhole, rfl⟩
      | some value =>
        injection h with h
        injection h with hfound hafter
        subst hfound hafter
        refine ⟨by rw [hvalue]; rfl, Table.find?_erase_self _ d.entries, fun other hne => ?_,
          fun hwhole => hwhole, rfl⟩
        exact Table.find?_erase_of_ne d.entries fun hsame => hne (Utf8.encode_injective hsame)

/-- Without damage every deletion succeeds. -/
theorem exists_delete_of_isWhole {c : Contents} (h : c.IsWhole) (key : String) :
    ∃ found after, c.delete key = .ok (found, after) := by
  cases c with
  | volatile t => exact ⟨_, _, rfl⟩
  | treeFile t => exact ⟨_, _, rfl⟩
  | logDirectory d =>
    unfold delete LogDirectory.delete
    dsimp only
    rw [lookup_of_isWhole h]
    cases d.entries.find? (Utf8.encode key) with
    | none => exact ⟨_, _, rfl⟩
    | some value => exact ⟨_, _, rfl⟩

end Contents

/-! ## Calls of an engine -/

namespace Engine

/-- The value that is bound to a key. -/
def value? (e : Engine) (key : String) : Option Bytes := e.contents.value? key

/-- No call of the engine can fail: no fault is planned, the workers take calls, and nothing
is damaged. -/
structure IsHealthy (e : Engine) : Prop where
  face : e.face = .bare ∨ e.face = .watched [] ∨ e.face = .minimal []
  isReachable : e.isReachable = true
  isWhole : e.contents.IsWhole

/-- Asking the fault plan changes at most the plan. -/
theorem consult_cases (operation : Operation) (key : String) (e : Engine) :
    ∃ face, consult operation key e = .ok () { e with face } ∨
      ∃ error, consult operation key e = .error error { e with face } := by
  unfold consult
  cases e.face with
  | bare => exact ⟨e.face, .inl rfl⟩
  | watched plan =>
    dsimp only
    generalize FaultPlan.consult operation key plan = r
    obtain ⟨failure, plan⟩ := r
    cases failure with
    | none => exact ⟨.watched plan, .inl rfl⟩
    | some error => exact ⟨.watched plan, .inr ⟨error, rfl⟩⟩
  | minimal plan =>
    dsimp only
    generalize FaultPlan.consult operation key plan = r
    obtain ⟨failure, plan⟩ := r
    cases failure with
    | none => exact ⟨.minimal plan, .inl rfl⟩
    | some error => exact ⟨.minimal plan, .inr ⟨error, rfl⟩⟩

/-- No call of the engine fails but for what it holds: no fault is planned, and the workers take
calls. -/
structure IsQuiet (e : Engine) : Prop where
  face : e.face = .bare ∨ e.face = .watched [] ∨ e.face = .minimal []
  isReachable : e.isReachable = true

/-- A healthy engine has no faults planned and can be reached. -/
theorem IsHealthy.isQuiet {e : Engine} (h : e.IsHealthy) : e.IsQuiet := ⟨h.face, h.isReachable⟩

/-- Without planned faults no call is stopped. -/
theorem IsQuiet.consult {e : Engine} (h : e.IsQuiet) (operation : Operation) (key : String) :
    consult operation key e = .ok () e := by
  obtain ⟨contents, face, workers⟩ := e
  rcases h.face with hface | hface | hface
  · dsimp only at hface
    subst hface
    rfl
  · dsimp only at hface
    subst hface
    rfl
  · dsimp only at hface
    subst hface
    rfl

/-- Nor is one of a healthy engine. -/
theorem IsHealthy.consult {e : Engine} (h : e.IsHealthy) (operation : Operation) (key : String) :
    consult operation key e = .ok () e :=
  h.isQuiet.consult operation key

/-- What a call can lead to on an engine: an answer `a` with the contents `c` for which
`P a c` holds, or a failure that leaves the contents; the fault plan may count the call. -/
def Outcome {α : Type} (e : Engine) (P : α → Contents → Prop)
    (r : EStateM.Result StorageError Engine α) : Prop :=
  ∃ face, (∃ a contents, P a contents ∧ r = .ok a { e with face, contents }) ∨
    ∃ error, r = .error error { e with face }

/-- A look at the contents answers from them or fails. -/
theorem inspect_outcome {α : Type} (operation : Operation) (key : String)
    (f : Contents → Except StorageError α) (e : Engine) :
    Outcome e (fun a c => f e.contents = .ok a ∧ c = e.contents)
      ((do Engine.consult operation key; inspect f) e) := by
  obtain ⟨face, hface⟩ := consult_cases operation key e
  refine ⟨face, ?_⟩
  rcases hface with hface | ⟨error, hface⟩
  · rw [Call.bind_ok hface]
    unfold inspect
    split
    · cases hf : f e.contents with
      | ok a => exact .inl ⟨a, e.contents, ⟨rfl, rfl⟩, rfl⟩
      | error error => exact .inr ⟨error, rfl⟩
    · exact .inr ⟨noWorker, rfl⟩
  · exact .inr ⟨error, Call.bind_error hface⟩

/-- A change of the contents is made or fails. -/
theorem update_outcome {α : Type} (operation : Operation) (key : String)
    (f : Contents → Except StorageError (α × Contents)) (e : Engine) :
    Outcome e (fun a c => f e.contents = .ok (a, c))
      ((do Engine.consult operation key; update f) e) := by
  obtain ⟨face, hface⟩ := consult_cases operation key e
  refine ⟨face, ?_⟩
  rcases hface with hface | ⟨error, hface⟩
  · rw [Call.bind_ok hface]
    unfold update
    split
    · cases hf : f e.contents with
      | ok x => exact .inl ⟨x.1, x.2, rfl, rfl⟩
      | error error => exact .inr ⟨error, rfl⟩
    · exact .inr ⟨noWorker, rfl⟩
  · exact .inr ⟨error, Call.bind_error hface⟩

/-- A read answers the value of its key and leaves the contents, or it fails. -/
theorem get_outcome (key : String) (e : Engine) :
    Outcome e (fun value c => e.value? key = value ∧ c = e.contents) (get key e) := by
  obtain ⟨face, h⟩ := inspect_outcome .get key (·.get key) e
  refine ⟨face, h.imp_left ?_⟩
  rintro ⟨value, contents, ⟨hvalue, hcontents⟩, hget⟩
  exact ⟨value, contents, ⟨Contents.get_eq_ok hvalue, hcontents⟩, hget⟩

/-- A write binds its key, or it fails and leaves the contents. -/
theorem put_outcome (key : String) (value : Bytes) (e : Engine) :
    Outcome e (fun _ c => c = e.contents.put key value) (put key value e) := by
  obtain ⟨face, h⟩ := update_outcome .put key (fun c => .ok ((), c.put key value)) e
  refine ⟨face, h.imp_left ?_⟩
  rintro ⟨answer, contents, hcontents, hput⟩
  injection hcontents with hcontents
  injection hcontents with _ hcontents
  exact ⟨answer, contents, hcontents.symm, hput⟩

/-! ## Healthy engines -/

namespace IsHealthy

variable {e : Engine} (h : e.IsHealthy)

include h

/-- A healthy engine reads every key as it is bound. -/
theorem get (key : String) : get key e = .ok (e.value? key) e := by
  unfold Engine.get
  rw [Call.bind_ok (h.consult .get key)]
  unfold inspect
  rw [if_pos h.isReachable]
  dsimp only
  rw [Contents.get_of_isWhole h.isWhole]
  rfl

/-- It writes every value. -/
theorem put (key : String) (value : Bytes) :
    put key value e = .ok () { e with contents := e.contents.put key value } := by
  unfold Engine.put
  rw [Call.bind_ok (h.consult .put key)]
  unfold update
  rw [if_pos h.isReachable]

/-- It deletes every key and tells whether it was bound. -/
theorem delete (key : String) :
    ∃ contents, e.contents.Deletes key (e.value? key).isSome contents ∧
      delete key e = .ok (e.value? key).isSome { e with contents } := by
  obtain ⟨found, contents, hdelete⟩ := Contents.exists_delete_of_isWhole h.isWhole key
  have hspec := Contents.deletes_of_delete hdelete
  have hfound : found = (e.value? key).isSome := hspec.found_eq
  subst hfound
  refine ⟨contents, hspec, ?_⟩
  unfold Engine.delete
  rw [Call.bind_ok (h.consult .delete key)]
  unfold update
  rw [if_pos h.isReachable]
  dsimp only
  rw [hdelete]

/-- Existence is answered alike by engines with and without an operation for it. -/
theorem exists? (key : String) : exists? key e = .ok (e.value? key).isSome e := by
  unfold Engine.exists? byFace
  split
  · rw [Call.bind_ok (h.get key)]
    rfl
  · rw [Call.bind_ok (h.consult .exists key)]
    unfold inspect
    rw [if_pos h.isReachable]
    dsimp only
    rw [Contents.exists?_of_isWhole h.isWhole]
    rfl

/-- An engine stays healthy when its contents change and stay whole. -/
theorem withContents {contents : Contents} (hwhole : contents.IsWhole)
    (hworkers : contents.usesWorkers = e.contents.usesWorkers) :
    ({ e with contents } : Engine).IsHealthy := by
  refine ⟨h.face, ?_, hwhole⟩
  have hreach := h.isReachable
  unfold Engine.isReachable at hreach ⊢
  dsimp only
  rw [hworkers]
  exact hreach

end IsHealthy

end Engine

end Strongbox
