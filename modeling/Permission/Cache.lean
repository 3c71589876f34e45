/-!
# A bounded cache

A cache keeps at most `capacity` entries, the most recently used one first.  Looking up an entry
makes it the most recent one; storing an entry into a full cache drops the least recent one.
Main statements: the entries never outnumber the capacity (`find_size_le`, `insert_size_le`).
-/

set_option autoImplicit false

namespace Permission

/-- Entries by key, the most recently used one first. -/
structure Cache (Key Value : Type) where
  capacity : Nat
  positive : 0 < capacity
  entries : List (Key × Value)

namespace Cache

variable {Key Value : Type} [DecidableEq Key]

def empty (capacity : Nat) (positive : 0 < capacity) : Cache Key Value :=
  { capacity, positive, entries := [] }

def size (cache : Cache Key Value) : Nat :=
  cache.entries.length

def keys (cache : Cache Key Value) : List Key :=
  cache.entries.map Prod.fst

def others (cache : Cache Key Value) (key : Key) : List (Key × Value) :=
  cache.entries.filter fun entry => entry.1 ≠ key

/-- The value of a key.  An entry that is found becomes the most recent one. -/
def find (cache : Cache Key Value) (key : Key) : Option Value × Cache Key Value :=
  match cache.entries.lookup key with
  | none => (none, cache)
  | some value => (some value, { cache with entries := (key, value) :: cache.others key })

/-- Stores a value as the most recent entry.  The least recent entries go when there are too
many. -/
def insert (cache : Cache Key Value) (key : Key) (value : Value) : Cache Key Value :=
  { cache with entries := ((key, value) :: cache.others key).take cache.capacity }

private theorem others_length_lt {cache : Cache Key Value} {key : Key} {value : Value}
    (found : cache.entries.lookup key = some value) :
    (cache.others key).length < cache.entries.length := by
  obtain ⟨newer, older, split, _⟩ := List.lookup_eq_some_iff.mp found
  refine List.length_filter_lt_length_iff_exists.mpr ⟨(key, value), ?_, by simp⟩
  rw [split]
  simp

theorem find_size_le {cache : Cache Key Value} (key : Key) (bound : cache.size ≤ cache.capacity) :
    (cache.find key).2.size ≤ cache.capacity := by
  unfold find
  split
  · exact bound
  · rename_i value found
    have shorter := others_length_lt found
    simp only [size, List.length_cons] at bound ⊢
    omega

theorem insert_size_le (cache : Cache Key Value) (key : Key) (value : Value) :
    (cache.insert key value).size ≤ cache.capacity := by
  simp only [insert, size, List.length_take]
  omega

end Cache
end Permission
