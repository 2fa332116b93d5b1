/-
  OrderedIndex/SortedMap.lean
  ===========================
  **Ordered maps** — a list of bindings with strictly increasing keys.  The order
  is part of the type, so every question about neighbours (`ceiling?`, `higher?`,
  `lower?`, `first?`, `last?`) is a search along the list, and `keys` is the
  listing in order.

  Insertion and removal keep the order (`pairwise_insertEntry`, `List.Pairwise.filter`).
-/

namespace OrderedIndex

/-- A finite map whose bindings stand in increasing order of their keys. -/
structure SortedMap (κ ν : Type) [Ord κ] where
  entries : List (κ × ν)
  sorted : entries.Pairwise (fun a b => compare a.1 b.1 = .lt)

namespace SortedMap

variable {κ ν : Type} [Ord κ]

instance [DecidableEq κ] [DecidableEq ν] : DecidableEq (SortedMap κ ν) := fun a b =>
  if h : a.entries = b.entries then
    .isTrue (by cases a; cases b; cases h; rfl)
  else .isFalse (fun e => h (e ▸ rfl))

theorem ext {a b : SortedMap κ ν} (h : a.entries = b.entries) : a = b := by
  cases a; cases b; cases h; rfl

/-- The map without bindings. -/
def empty : SortedMap κ ν := ⟨[], .nil⟩

instance : Inhabited (SortedMap κ ν) := ⟨empty⟩

/-! ### Changes -/

/-- Puts a binding in its place, taking the place of one with an equal key. -/
def insertEntry (k : κ) (v : ν) : List (κ × ν) → List (κ × ν)
  | [] => [(k, v)]
  | e :: rest =>
    match compare k e.1 with
    | .lt => (k, v) :: e :: rest
    | .eq => (k, v) :: rest
    | .gt => e :: insertEntry k v rest

theorem mem_insertEntry {k : κ} {v : ν} {a : κ × ν} {l : List (κ × ν)}
    (h : a ∈ insertEntry k v l) : a = (k, v) ∨ a ∈ l := by
  induction l with
  | nil => exact .inl (List.mem_singleton.1 h)
  | cons e rest ih =>
    simp only [insertEntry] at h
    split at h
    · exact (List.mem_cons.1 h).imp id id
    · exact (List.mem_cons.1 h).imp id (List.mem_cons_of_mem _)
    · rcases List.mem_cons.1 h with rfl | h
      · exact .inr List.mem_cons_self
      · exact (ih h).imp id (List.mem_cons_of_mem _)

theorem pairwise_insertEntry [Std.TransOrd κ] (k : κ) (v : ν) {l : List (κ × ν)}
    (h : l.Pairwise (fun a b => compare a.1 b.1 = .lt)) :
    (insertEntry k v l).Pairwise (fun a b => compare a.1 b.1 = .lt) := by
  induction l with
  | nil => simp [insertEntry]
  | cons e rest ih =>
    have ⟨head, tail⟩ := List.pairwise_cons.1 h
    simp only [insertEntry]
    split
    · rename_i hlt
      refine List.pairwise_cons.2 ⟨fun a ha => ?_, h⟩
      rcases List.mem_cons.1 ha with rfl | ha
      · exact hlt
      · exact Std.TransCmp.lt_trans hlt (head a ha)
    · rename_i heq
      exact List.pairwise_cons.2 ⟨fun a ha => Std.TransCmp.lt_of_eq_of_lt heq (head a ha), tail⟩
    · rename_i hgt
      refine List.pairwise_cons.2 ⟨fun a ha => ?_, ih tail⟩
      rcases mem_insertEntry ha with rfl | ha
      · exact Std.OrientedCmp.lt_of_gt hgt
      · exact head a ha

/-- The map with `k` bound to `v`. -/
def insert [Std.TransOrd κ] (m : SortedMap κ ν) (k : κ) (v : ν) : SortedMap κ ν :=
  ⟨insertEntry k v m.entries, pairwise_insertEntry k v m.sorted⟩

/-- The map without a binding of `k`. -/
def erase (m : SortedMap κ ν) (k : κ) : SortedMap κ ν :=
  ⟨m.entries.filter (fun e => compare e.1 k != .eq), m.sorted.filter _⟩

/-! ### Questions -/

/-- What `k` is bound to. -/
def get? (m : SortedMap κ ν) (k : κ) : Option ν :=
  (m.entries.find? (fun e => compare e.1 k == .eq)).map (·.2)

/-- Whether `k` is bound. -/
def contains (m : SortedMap κ ν) (k : κ) : Bool := (m.get? k).isSome

/-- All keys, in order. -/
def keys (m : SortedMap κ ν) : List κ := m.entries.map (·.1)

/-- The values, in the order of their keys. -/
def values (m : SortedMap κ ν) : List ν := m.entries.map (·.2)

/-- The number of bindings. -/
def size (m : SortedMap κ ν) : Nat := m.entries.length

/-- The smallest key at or after `k`. -/
def ceiling? (m : SortedMap κ ν) (k : κ) : Option κ := m.keys.find? (fun x => (compare x k).isGE)

/-- The smallest key after `k`. -/
def higher? (m : SortedMap κ ν) (k : κ) : Option κ := m.keys.find? (fun x => (compare x k).isGT)

/-- The largest key before `k`. -/
def lower? (m : SortedMap κ ν) (k : κ) : Option κ :=
  m.keys.reverse.find? (fun x => (compare x k).isLT)

/-- The smallest key. -/
def first? (m : SortedMap κ ν) : Option κ := m.keys.head?

/-- The largest key. -/
def last? (m : SortedMap κ ν) : Option κ := m.keys.getLast?

end SortedMap
end OrderedIndex
