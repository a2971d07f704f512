/-! Tables from names to values that remember the order in which names first came in. Setting a
name again changes its value and keeps its place. -/

namespace BlockLowering

structure Table (α : Type) where
  entries : List (String × α) := []
  deriving Repr, DecidableEq, Inhabited

namespace Table

variable {α : Type}

def lookup (name : String) : List (String × α) → Option α
  | [] => none
  | (k, v) :: rest => if k = name then some v else lookup name rest

def get? (t : Table α) (name : String) : Option α := lookup name t.entries

def setEntry (name : String) (value : α) : List (String × α) → List (String × α)
  | [] => [(name, value)]
  | (k, v) :: rest =>
    if k = name then (k, value) :: rest else (k, v) :: setEntry name value rest

def insert (t : Table α) (name : String) (value : α) : Table α :=
  ⟨setEntry name value t.entries⟩

def ofList (entries : List (String × α)) : Table α :=
  entries.foldl (fun t e => t.insert e.1 e.2) ⟨[]⟩

def size (t : Table α) : Nat := t.entries.length

def keys (t : Table α) : List String := t.entries.map (·.1)

def values (t : Table α) : List α := t.entries.map (·.2)

/-- The entries by name, in the order of their code points. -/
def sorted (t : Table α) : List (String × α) := t.entries.mergeSort fun a b => decide (a.1 ≤ b.1)

@[simp] theorem lookup_setEntry_self (name : String) (value : α) (l : List (String × α)) :
    lookup name (setEntry name value l) = some value := by
  induction l with
  | nil => simp [setEntry, lookup]
  | cons e rest ih =>
    obtain ⟨k, v⟩ := e
    by_cases h : k = name <;> simp [setEntry, lookup, h, ih]

theorem lookup_setEntry_of_ne {name other : String} (h : other ≠ name) (value : α)
    (l : List (String × α)) : lookup other (setEntry name value l) = lookup other l := by
  induction l with
  | nil => simp [setEntry, lookup, h.symm]
  | cons e rest ih =>
    obtain ⟨k, v⟩ := e
    by_cases hk : k = name
    · simp [setEntry, lookup, hk, h.symm]
    · simp [setEntry, lookup, hk, ih]

@[simp] theorem get?_insert_self (t : Table α) (name : String) (value : α) :
    (t.insert name value).get? name = some value :=
  lookup_setEntry_self name value t.entries

theorem get?_eq_none {t : Table α} {name : String} (h : name ∉ t.keys) : t.get? name = none := by
  obtain ⟨entries⟩ := t
  simp only [get?, keys] at h ⊢
  induction entries with
  | nil => rfl
  | cons e rest ih =>
    rw [List.map_cons, List.mem_cons, not_or] at h
    rw [lookup, if_neg (Ne.symm h.1)]
    exact ih h.2

theorem get?_insert_of_ne (t : Table α) {name other : String} (h : other ≠ name) (value : α) :
    (t.insert name value).get? other = t.get? other :=
  lookup_setEntry_of_ne h value t.entries

end Table

end BlockLowering
