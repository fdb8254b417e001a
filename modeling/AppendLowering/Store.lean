import AppendLowering.Fault

/-!
# Stores

A store hands out ids in order, starting from zero: the id of an entry is its
position. Entries are never changed; the newest ones can be cut off.

Ids are natural numbers. Where they stand for words of 32 bits, a store is
assumed to have fewer than `2 ^ 32` entries, and results that need the bound
have it as a hypothesis.
-/

namespace AppendLowering

/-- Entries in the order in which they were added. -/
structure Store (α : Type) where
  entries : List α
  deriving DecidableEq, Repr

namespace Store

variable {α : Type}

def empty : Store α := ⟨[]⟩

instance : Inhabited (Store α) := ⟨empty⟩

def length (store : Store α) : Nat := store.entries.length

def isEmpty (store : Store α) : Bool := store.entries.isEmpty

/-- Adds an entry, whose id is the length of `store`. -/
def push (store : Store α) (entry : α) : Store α := ⟨store.entries ++ [entry]⟩

/-- The entry under an id that was handed out. -/
def get (store : Store α) (id : Nat) : Except Fault α :=
  match store.entries[id]? with
  | some entry => .ok entry
  | none => .error .unknownId

/-- Keeps the first `length` entries. -/
def truncate (store : Store α) (length : Nat) : Store α := ⟨store.entries.take length⟩

/-- Every entry with its id. -/
def enumerate (store : Store α) : List (Nat × α) :=
  store.entries.zipIdx.map fun entry => (entry.2, entry.1)

@[simp] theorem entries_push (store : Store α) (entry : α) :
    (store.push entry).entries = store.entries ++ [entry] := rfl

@[simp] theorem length_push (store : Store α) (entry : α) :
    (store.push entry).length = store.length + 1 := by
  simp [length]

theorem get_push_length (store : Store α) (entry : α) :
    (store.push entry).get store.length = .ok entry := by
  simp [get, length]

theorem get_eq_ok_iff {store : Store α} {id : Nat} {entry : α} :
    store.get id = .ok entry ↔ store.entries[id]? = some entry := by
  unfold get
  split <;> simp_all

/-- An entry stays under its id when others are added. -/
theorem get_push_of_get {store : Store α} {id : Nat} {entry : α} (h : store.get id = .ok entry)
    (added : α) : (store.push added).get id = .ok entry := by
  rw [get_eq_ok_iff] at h ⊢
  rw [entries_push, List.getElem?_append_left (List.getElem?_eq_some_iff.mp h).1, h]

end Store

end AppendLowering
