import Strongbox.Table.Bindings

/-!
# Ordered tables

A table is a finite map kept as a list of bindings with strictly increasing keys.  The
order is part of the type, so a scan is a walk along the list.
-/

namespace Strongbox

/-- A finite map with its bindings in ascending order of their keys. -/
structure Table (κ ν : Type) [LT κ] where
  entries : List (κ × ν)
  ascending : entries.Pairwise fun a b => a.1 < b.1

namespace Table

variable {κ ν : Type} [LT κ]

/-- The table without bindings. -/
def empty : Table κ ν := ⟨[], .nil⟩

instance : Inhabited (Table κ ν) := ⟨empty⟩

/-- The number of bindings. -/
def size (t : Table κ ν) : Nat := t.entries.length

/-- The keys in ascending order. -/
def keys (t : Table κ ν) : List κ := t.entries.map (·.1)

/-- The table with every value replaced by a function of it. -/
def mapValues {μ : Type} (f : ν → μ) (t : Table κ ν) : Table κ μ :=
  ⟨t.entries.map fun b => (b.1, f b.2), List.pairwise_map.2 t.ascending⟩

variable [DecidableLT κ]

/-- The value bound to a key. -/
def find? (key : κ) (t : Table κ ν) : Option ν := Bindings.find? key t.entries

/-- An empty table binds nothing. -/
theorem find?_empty (key : κ) : (empty : Table κ ν).find? key = none := rfl

/-- Whether a key is bound. -/
def contains (key : κ) (t : Table κ ν) : Bool := (t.find? key).isSome

/-- The table without a key. -/
def erase (key : κ) (t : Table κ ν) : Table κ ν :=
  ⟨Bindings.erase key t.entries, Bindings.ascending_erase key t.ascending⟩

variable [LE κ] [Std.IsLinearOrder κ] [Std.LawfulOrderLT κ]

/-- The table with `key` bound to `value`. -/
def insert (key : κ) (value : ν) (t : Table κ ν) : Table κ ν :=
  ⟨Bindings.insert key value t.entries, Bindings.ascending_insert key value t.ascending⟩

/-- A key that was bound is found with its value. -/
@[simp]
theorem find?_insert_self (key : κ) (value : ν) (t : Table κ ν) :
    (t.insert key value).find? key = some value :=
  Bindings.find?_insert_self key value t.entries

/-- Other keys are found as before. -/
theorem find?_insert_of_ne {key other : κ} (value : ν) (t : Table κ ν) (h : other ≠ key) :
    (t.insert key value).find? other = t.find? other :=
  Bindings.find?_insert_of_ne value h t.entries

/-- A key that was removed is not found. -/
@[simp]
theorem find?_erase_self (key : κ) (t : Table κ ν) : (t.erase key).find? key = none :=
  Bindings.find?_erase_self key t.ascending

/-- Other keys are found as before, too. -/
theorem find?_erase_of_ne {key other : κ} (t : Table κ ν) (h : other ≠ key) :
    (t.erase key).find? other = t.find? other :=
  Bindings.find?_erase_of_ne h t.ascending

end Table

end Strongbox
