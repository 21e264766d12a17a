import Strongbox.Store.Basic
import Strongbox.Proofs.Call

/-!
# Fleets

A fleet is any number of stores over one engine, one clock and one source of random
octets.  Its stores take turns, one whole operation at a time.
-/

set_option autoImplicit false

namespace Strongbox

/-- Stores that share their surroundings. -/
structure Fleet where
  stores : Nat → Store
  ambient : Ambient

namespace Fleet

/-- A store of the fleet in the common surroundings. -/
def scene (f : Fleet) (i : Nat) : Scene := ⟨f.stores i, f.ambient⟩

/-- The fleet with another store at a place, in other surroundings. -/
def withScene (f : Fleet) (i : Nat) (s : Scene) : Fleet :=
  ⟨fun j => if j = i then s.store else f.stores j, s.ambient⟩

/-- The scene that was put in place is found there. -/
@[simp]
theorem scene_withScene_self (f : Fleet) (i : Nat) (s : Scene) :
    (f.withScene i s).scene i = s := by
  unfold scene withScene
  dsimp only
  rw [if_pos rfl]

/-- Any other store sees the same surroundings as the one whose scene was put in place. -/
theorem scene_withScene_of_ne (f : Fleet) {i j : Nat} (h : j ≠ i) (s : Scene) :
    (f.withScene i s).scene j = ⟨f.stores j, s.ambient⟩ := by
  unfold scene withScene
  dsimp only
  rw [if_neg h]

/-- The store of the scene is found in its place. -/
theorem stores_withScene_self (f : Fleet) (i : Nat) (s : Scene) :
    (f.withScene i s).stores i = s.store := if_pos rfl

/-- The other stores stay. -/
theorem stores_withScene_of_ne (f : Fleet) {i j : Nat} (h : j ≠ i) (s : Scene) :
    (f.withScene i s).stores j = f.stores j := if_neg h

/-- All sessions have the given cipher. -/
def HasCipher (a : Aead) (f : Fleet) : Prop :=
  ∀ i session, (f.stores i).session = some session → session.cipher = a

/-- A fleet keeps its cipher if the store whose scene is put in place does. -/
theorem HasCipher.withScene {a : Aead} {f : Fleet} (h : f.HasCipher a) {i : Nat} {t : Scene}
    (ht : ∀ session, t.store.session = some session → session.cipher = a) :
    (f.withScene i t).HasCipher a := by
  intro j session hsession
  by_cases hsame : j = i
  · rw [hsame, stores_withScene_self] at hsession
    exact ht session hsession
  · rw [stores_withScene_of_ne f hsame] at hsession
    exact h j session hsession

/-- One operation of the store at a place: its answer, and the fleet after it. -/
def perform {α : Type} (i : Nat) (call : StoreCall α) (f : Fleet) : Except StoreError α × Fleet :=
  let r := call (f.scene i)
  (Call.answer r, f.withScene i (Call.after r))

end Fleet

end Strongbox
