/-!
Tables with their keys in ascending order, looked up from the front.
-/

namespace StorageLoad

/-- Entries in ascending order of their keys. -/
structure Table (κ α : Type) where
  entries : List (κ × α)
  deriving Repr

namespace Table

variable {κ α : Type}

def empty : Table κ α := ⟨[]⟩

def keys (t : Table κ α) : List κ :=
  t.entries.map (·.1)

section Lookup

variable [DecidableEq κ]

def get? (t : Table κ α) (k : κ) : Option α :=
  (t.entries.find? (·.1 = k)).map (·.2)

def contains (t : Table κ α) (k : κ) : Bool :=
  (t.get? k).isSome

def erase (t : Table κ α) (k : κ) : Table κ α :=
  ⟨t.entries.filter (·.1 ≠ k)⟩

theorem get?_erase_self (t : Table κ α) (k : κ) : (t.erase k).get? k = none := by
  simp only [get?, erase, Option.map_eq_none_iff, List.find?_eq_none, List.mem_filter]
  rintro e ⟨_, he⟩
  simpa using he

theorem get?_erase_of_ne {k l : κ} (t : Table κ α) (h : l ≠ k) :
    (t.erase k).get? l = t.get? l := by
  simp only [get?, erase, List.find?_filter]
  congr 2
  funext e
  by_cases he : e.1 = l
  · simp [he, h]
  · simp [he]

end Lookup

section Order

variable [LT κ] [DecidableLT κ]

/-- Puts a value under a key, in the place of an equal key or else before the first greater
one. -/
def insertEntry (k : κ) (v : α) : List (κ × α) → List (κ × α)
  | [] => [(k, v)]
  | (l, w) :: es =>
      if k < l then (k, v) :: (l, w) :: es
      else if l < k then (l, w) :: insertEntry k v es
      else (k, v) :: es

def insert (t : Table κ α) (k : κ) (v : α) : Table κ α :=
  ⟨insertEntry k v t.entries⟩

/-- The entries whose keys lie after a bound, up to the first that fails a test. -/
def scanAfter (t : Table κ α) (bound : κ) (holds : κ → Bool) : List (κ × α) :=
  (t.entries.dropWhile fun e => ¬ bound < e.1).takeWhile fun e => holds e.1

end Order

end Table

end StorageLoad
