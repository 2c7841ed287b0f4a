import Joinery.Assembly.IdMap
/-!
# Maps made from lists

A map made from a list has the keys of the list, and where no key occurs twice
it has every value of the list under its key.
-/

namespace Joinery.IdMap

variable {β : Type} {l : List (String × β)} {m : IdMap β} {key k : String} {value v : β}

theorem mem_keys_insert : k ∈ (m.insert key value).keys ↔ k = key ∨ k ∈ m.keys := by
  show k ∈ (place key value m.entries).map (·.1) ↔ k = key ∨ k ∈ m.entries.map (·.1)
  induction m.entries with
  | nil => simp [place]
  | cons x rest ih =>
    obtain ⟨k', v'⟩ := x
    unfold place
    split
    · simp
    · split
      · rename_i heq
        simp [heq]
      · rw [List.map_cons, List.mem_cons, ih, List.map_cons, List.mem_cons]
        exact or_left_comm

theorem nodup_keys (m : IdMap β) : m.keys.Nodup := by
  rw [keys, List.Nodup, List.pairwise_map]
  exact m.sorted.imp fun hlt => Std.ne_of_lt hlt

/-- Inserting one entry after the other, the first one first. -/
def insertAll (m : IdMap β) (l : List (String × β)) : IdMap β :=
  l.foldl (fun m x => m.insert x.1 x.2) m

theorem mem_keys_insertAll : k ∈ (m.insertAll l).keys ↔ k ∈ l.map (·.1) ∨ k ∈ m.keys := by
  unfold insertAll
  induction l generalizing m with
  | nil => simp
  | cons x rest ih =>
    rw [List.foldl_cons, ih, mem_keys_insert, List.map_cons, List.mem_cons, or_assoc]
    exact or_left_comm

theorem get?_insertAll_of_not_mem (h : k ∉ l.map (·.1)) : (m.insertAll l).get? k = m.get? k := by
  unfold insertAll
  induction l generalizing m with
  | nil => rfl
  | cons x rest ih =>
    rw [List.map_cons, List.mem_cons, not_or] at h
    rw [List.foldl_cons, ih h.2, get?_insert, if_neg h.1]

theorem get?_insertAll (hnodup : (l.map (·.1)).Nodup) (h : (k, v) ∈ l) :
    (m.insertAll l).get? k = some v := by
  induction l generalizing m with
  | nil => cases h
  | cons x rest ih =>
    rw [List.map_cons, List.nodup_cons] at hnodup
    rcases List.mem_cons.1 h with rfl | h
    · -- no later key is this one, so nothing replaces the value
      have hlater : (insertAll (m.insert k v) rest).get? k = (m.insert k v).get? k :=
        get?_insertAll_of_not_mem hnodup.1
      rw [insertAll, List.foldl_cons, ← insertAll, hlater, get?_insert, if_pos rfl]
    · exact ih hnodup.2 h

theorem mem_insertAll {x : String × β} (h : x ∈ (m.insertAll l).entries) :
    x ∈ l ∨ x ∈ m.entries := by
  induction l generalizing m with
  | nil => exact .inr h
  | cons y rest ih =>
    rcases ih h with h | h
    · exact .inl (List.mem_cons_of_mem _ h)
    · rcases mem_place h with rfl | h
      · exact .inl List.mem_cons_self
      · exact .inr h

/-! ## From an empty map -/

theorem mem_of_mem_ofList {x : String × β} (h : x ∈ (ofList l).entries) : x ∈ l :=
  (mem_insertAll h).resolve_right List.not_mem_nil

theorem get?_ofList (hnodup : (l.map (·.1)).Nodup) (h : (k, v) ∈ l) :
    (ofList l).get? k = some v := get?_insertAll hnodup h

/-- A map has the keys of the list that it is made from. -/
theorem keys_ofList_perm (hnodup : (l.map (·.1)).Nodup) :
    (ofList l).keys.Perm (l.map (·.1)) := by
  refine (List.perm_ext_iff_of_nodup (nodup_keys _) hnodup).2 ?_
  intro k
  refine mem_keys_insertAll.trans (or_iff_left ?_)
  exact List.not_mem_nil

/-- A map has the entries of the list that it is made from. -/
theorem entries_ofList_perm (hnodup : (l.map (·.1)).Nodup) : (ofList l).entries.Perm l := by
  have hentries : (ofList l).entries.Nodup :=
    (ofList l).sorted.imp fun hlt heq => Std.ne_of_lt hlt (congrArg Prod.fst heq)
  have hlist : l.Nodup := List.Pairwise.of_map _ (fun _ _ hne heq => hne (congrArg _ heq)) hnodup
  refine (List.perm_ext_iff_of_nodup hentries hlist).2 fun x => ?_
  constructor
  · exact mem_of_mem_ofList
  · intro hx
    obtain ⟨before, after, hsplit, -⟩ := List.lookup_eq_some_iff.1 (get?_ofList hnodup hx)
    rw [hsplit]
    simp

/-- The order of a list without repeated keys does not matter for its map. -/
theorem ofList_perm {l' : List (String × β)} (hnodup : (l.map (·.1)).Nodup) (h : l.Perm l') :
    ofList l = ofList l' := by
  have hperm : (ofList l).entries.Perm (ofList l').entries :=
    ((entries_ofList_perm hnodup).trans h).trans
      (entries_ofList_perm ((h.map _).nodup_iff.1 hnodup)).symm
  have hentries : (ofList l).entries = (ofList l').entries :=
    hperm.eq_of_pairwise (fun x y _ _ hxy hyx => absurd hyx (Std.not_lt.2 (Std.le_of_lt hxy)))
      (ofList l).sorted (ofList l').sorted
  cases hl : ofList l
  cases hl' : ofList l'
  rw [hl, hl'] at hentries
  cases hentries
  rfl

/-! ## Maps of other values -/

section Map

variable {γ : Type} (f : β → γ)

/-- The map with another value under every key. -/
def map (m : IdMap β) : IdMap γ :=
  ⟨m.entries.map fun x => (x.1, f x.2), m.sorted.map _ fun _ _ h => h⟩

theorem get?_map (m : IdMap β) (k : String) : (m.map f).get? k = (m.get? k).map f := by
  show (m.entries.map fun x => (x.1, f x.2)).lookup k = (m.entries.lookup k).map f
  induction m.entries with
  | nil => rfl
  | cons x rest ih =>
    rw [List.map_cons, List.lookup_cons, List.lookup_cons]
    split
    · rfl
    · exact ih

theorem map_insert (m : IdMap β) (key : String) (value : β) :
    (m.insert key value).map f = (m.map f).insert key (f value) := by
  have hplace : ∀ l : List (String × β), (place key value l).map (fun x => (x.1, f x.2)) =
      place key (f value) (l.map fun x => (x.1, f x.2)) := by
    intro l
    induction l with
    | nil => rfl
    | cons x rest ih =>
      simp only [place, List.map_cons]
      split
      · rfl
      · split
        · rfl
        · rw [List.map_cons, ih]
  unfold insert map
  congr 1
  exact hplace m.entries

theorem map_ofList (l : List (String × β)) :
    (ofList l).map f = ofList (l.map fun x => (x.1, f x.2)) := by
  have hall : ∀ m : IdMap β,
      (m.insertAll l).map f = (m.map f).insertAll (l.map fun x => (x.1, f x.2)) := by
    induction l with
    | nil => intro m; rfl
    | cons x rest ih =>
      intro m
      show ((m.insert x.1 x.2).insertAll rest).map f = _
      rw [ih, map_insert]
      rfl
  exact hall empty

end Map

end Joinery.IdMap
