/-!
# Maps by identifier

A map from identifiers to values keeps its entries in the order of their keys,
each key once. Inserting replaces, so of several values for a key the last one
counts (`get?_insert`).
-/

namespace Joinery

/-- Puts a value under a key into entries that are sorted by key. -/
def IdMap.place {β : Type} (key : String) (value : β) : List (String × β) → List (String × β)
  | [] => [(key, value)]
  | (k, v) :: rest =>
    if key < k then (key, value) :: (k, v) :: rest
    else if key = k then (key, value) :: rest
    else (k, v) :: place key value rest

theorem IdMap.mem_place {β : Type} {key : String} {value : β} {l : List (String × β)}
    {x : String × β} (h : x ∈ place key value l) : x = (key, value) ∨ x ∈ l := by
  induction l with
  | nil => simpa [place] using h
  | cons y rest ih =>
    obtain ⟨k, v⟩ := y
    simp only [place] at h
    split at h
    · simpa using h
    · split at h
      · simp only [List.mem_cons] at h ⊢
        exact h.imp_right .inr
      · simp only [List.mem_cons] at h ⊢
        rcases h with h | h
        · exact .inr (.inl h)
        · rcases ih h with h | h
          · exact .inl h
          · exact .inr (.inr h)

theorem IdMap.sorted_place {β : Type} (key : String) (value : β) {l : List (String × β)}
    (h : l.Pairwise fun a b => a.1 < b.1) :
    (place key value l).Pairwise fun a b => a.1 < b.1 := by
  induction l with
  | nil => simp [place]
  | cons y rest ih =>
    obtain ⟨k, v⟩ := y
    rw [List.pairwise_cons] at h
    simp only [place]
    split
    · rename_i hlt
      rw [List.pairwise_cons]
      refine ⟨?_, List.pairwise_cons.2 h⟩
      intro b hb
      rcases List.mem_cons.1 hb with rfl | hb
      · exact hlt
      · exact String.lt_trans hlt (h.1 b hb)
    · rename_i hnlt
      split
      · rename_i heq
        subst heq
        exact List.pairwise_cons.2 h
      · rename_i hne
        refine List.pairwise_cons.2 ⟨?_, ih h.2⟩
        intro b hb
        rcases mem_place hb with rfl | hb
        · exact Std.lt_of_le_of_ne (Std.not_lt.1 hnlt) (Ne.symm hne)
        · exact h.1 b hb

/-- Values by identifier, in the order of the identifiers. -/
structure IdMap (β : Type) where
  entries : List (String × β)
  sorted : entries.Pairwise fun a b => a.1 < b.1

namespace IdMap

variable {β : Type}

def empty : IdMap β := ⟨[], .nil⟩

instance : Inhabited (IdMap β) := ⟨empty⟩

instance [BEq β] : BEq (IdMap β) := ⟨fun a b => a.entries == b.entries⟩

/-- The map with `value` under `key`, in place of what was there. -/
def insert (m : IdMap β) (key : String) (value : β) : IdMap β :=
  ⟨place key value m.entries, sorted_place key value m.sorted⟩

def ofList (l : List (String × β)) : IdMap β :=
  l.foldl (fun m x => m.insert x.1 x.2) empty

def get? (m : IdMap β) (key : String) : Option β := m.entries.lookup key

def keys (m : IdMap β) : List String := m.entries.map (·.1)

def isEmpty (m : IdMap β) : Bool := m.entries.isEmpty

theorem lookup_place (key : String) (value : β) (l : List (String × β)) (k : String) :
    (place key value l).lookup k = if k = key then some value else l.lookup k := by
  have hne : ∀ {a b : String}, ¬a = b → (a == b) = false := fun h => by simpa using h
  induction l with
  | nil => by_cases hk : k = key <;> simp [place, List.lookup_cons, hk, hne]
  | cons y rest ih =>
    obtain ⟨k', v⟩ := y
    simp only [place]
    split
    · by_cases hk : k = key <;> simp [List.lookup_cons, hk, hne]
    · split
      · rename_i heq
        subst heq
        by_cases hk : k = key <;> simp [List.lookup_cons, hk, hne]
      · rename_i hkey
        by_cases hk : k = key
        · subst hk
          simp [List.lookup_cons, ih, hne hkey]
        · simp [List.lookup_cons, ih, hk]

/-- A value that was inserted is found under its key, and nothing else changed. -/
@[simp]
theorem get?_insert (m : IdMap β) (key : String) (value : β) (k : String) :
    (m.insert key value).get? k = if k = key then some value else m.get? k :=
  lookup_place key value m.entries k

end IdMap

end Joinery
