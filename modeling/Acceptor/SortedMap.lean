import Acceptor.Order

/-!
  Acceptor.SortedMap — finite maps kept in the order of their keys

  A map is the list of its entries with keys strictly ascending, so a key occurs once and two
  maps with the same look-ups are equal. The one way to change a map is `alter`, which sets a
  key to a value made from the old one; the other writes are instances of it.

  Main statements:
    1. `SortedMap.get?_alter` — `alter` changes the look-up of its own key and no other.
    2. `SortedMap.ext_get?` — maps with the same look-ups are equal.
    3. `SortedMap.mem_entries_iff` — the entries are exactly the successful look-ups.
    4. `SortedMap.get?_ofList_eq_some_iff` — where a list has each key once, its map looks up what
       the list has.
    5. `SortedMap.ofList_entries` — a map is the map of its own entries.
-/

namespace Acceptor

variable {κ ν : Type} [Ordered κ]

/-- A finite map: its entries, keys strictly ascending. -/
structure SortedMap (κ ν : Type) [Ordered κ] where
  entries : List (κ × ν)
  ascending : entries.Pairwise (fun p q => p.1 < q.1)

/-! ## Entry lists -/

namespace Entries

/-- The value stored under a key. -/
def lookup (k : κ) : List (κ × ν) → Option ν
  | [] => none
  | (k', v) :: rest => if k = k' then some v else lookup k rest

/-- The entries with the value under `k` replaced by `f` of the old one. -/
def alter (k : κ) (f : Option ν → ν) : List (κ × ν) → List (κ × ν)
  | [] => [(k, f none)]
  | (k', v) :: rest =>
    if k < k' then (k, f none) :: (k', v) :: rest
    else if k = k' then (k, f (some v)) :: rest
    else (k', v) :: alter k f rest

theorem key_of_mem_alter {k : κ} {f : Option ν → ν} {l : List (κ × ν)} {p : κ × ν}
    (h : p ∈ alter k f l) : p.1 = k ∨ p ∈ l := by
  induction l with
  | nil => simp_all [alter]
  | cons q rest ih =>
    obtain ⟨k', v⟩ := q
    rw [alter] at h
    split at h
    · grind
    · split at h <;> grind

theorem ascending_alter {k : κ} {f : Option ν → ν} {l : List (κ × ν)}
    (h : l.Pairwise (fun p q => p.1 < q.1)) :
    (alter k f l).Pairwise (fun p q => p.1 < q.1) := by
  induction l with
  | nil => simp [alter]
  | cons q rest ih =>
    obtain ⟨k', v⟩ := q
    obtain ⟨hq, hrest⟩ := List.pairwise_cons.1 h
    rw [alter]
    split
    · next hlt =>
      refine List.pairwise_cons.2 ⟨fun p hp => ?_, h⟩
      obtain rfl | hp := List.mem_cons.1 hp
      · exact hlt
      · exact Ordered.trans hlt (hq p hp)
    · next hlt =>
      split
      · next heq =>
        subst heq
        exact List.pairwise_cons.2 ⟨hq, hrest⟩
      · next hne =>
        refine List.pairwise_cons.2 ⟨fun p hp => ?_, ih hrest⟩
        obtain hk | hp := key_of_mem_alter hp
        · rw [hk]
          obtain h' | h' := Ordered.not_lt_iff.1 hlt
          · exact absurd h' hne
          · exact h'
        · exact hq p hp

theorem lookup_eq_none_of_lt {k : κ} {l : List (κ × ν)} (h : ∀ p ∈ l, k < p.1) :
    lookup k l = none := by
  induction l with
  | nil => rfl
  | cons q rest ih =>
    have hne : k ≠ q.1 := Ordered.ne_of_lt (h q List.mem_cons_self)
    rw [lookup, if_neg hne]
    exact ih fun p hp => h p (List.mem_cons_of_mem _ hp)

theorem lookup_alter {k k' : κ} {f : Option ν → ν} {l : List (κ × ν)}
    (h : l.Pairwise (fun p q => p.1 < q.1)) :
    lookup k' (alter k f l) = if k' = k then some (f (lookup k l)) else lookup k' l := by
  induction l with
  | nil => simp [alter, lookup]
  | cons q rest ih =>
    obtain ⟨k₁, v⟩ := q
    obtain ⟨hq, hrest⟩ := List.pairwise_cons.1 h
    rw [alter]
    split
    · next hlt =>
      have hnone : lookup k ((k₁, v) :: rest) = none := lookup_eq_none_of_lt fun p hp => by
        obtain rfl | hp := List.mem_cons.1 hp
        · exact hlt
        · exact Ordered.trans hlt (hq p hp)
      rw [hnone, lookup]
    · split
      · next heq =>
        subst heq
        by_cases hk : k' = k <;> simp [lookup, hk]
      · next hne =>
        by_cases hk : k' = k₁
        · subst hk
          simp [lookup, Ne.symm hne]
        · simp [lookup, hk, hne, ih hrest]

theorem lookup_eq_some_iff {k : κ} {v : ν} {l : List (κ × ν)}
    (h : l.Pairwise (fun p q => p.1 < q.1)) : lookup k l = some v ↔ (k, v) ∈ l := by
  induction l with
  | nil => simp [lookup]
  | cons q rest ih =>
    obtain ⟨k', v'⟩ := q
    obtain ⟨hq, hrest⟩ := List.pairwise_cons.1 h
    by_cases hk : k = k'
    · subst hk
      have hout : (k, v) ∉ rest := fun hm => Ordered.irrefl k (hq _ hm)
      simp [lookup, hout, eq_comm]
    · simp [lookup, hk, ih hrest]

end Entries

/-! ## Maps -/

namespace SortedMap

def empty : SortedMap κ ν := ⟨[], List.Pairwise.nil⟩

/-- The map's entry for one key, or nothing. -/
def get? (m : SortedMap κ ν) (k : κ) : Option ν := Entries.lookup k m.entries

def contains (m : SortedMap κ ν) (k : κ) : Bool := (m.get? k).isSome

/-- Sets a key to `f` of its old value. -/
def alter (m : SortedMap κ ν) (k : κ) (f : Option ν → ν) : SortedMap κ ν :=
  ⟨Entries.alter k f m.entries, Entries.ascending_alter m.ascending⟩

/-- Sets a key to a value, whatever was there. -/
def insert (m : SortedMap κ ν) (k : κ) (v : ν) : SortedMap κ ν := m.alter k fun _ => v

/-- Gives a key a value unless it has one. -/
def insertNew (m : SortedMap κ ν) (k : κ) (v : ν) : SortedMap κ ν := m.alter k (·.getD v)

/-- The map of a list of entries; the last entry of a key wins. -/
def ofList (l : List (κ × ν)) : SortedMap κ ν := l.foldl (fun m p => m.insert p.1 p.2) empty

def keys (m : SortedMap κ ν) : List κ := m.entries.map (·.1)

def size (m : SortedMap κ ν) : Nat := m.entries.length

@[simp] theorem get?_empty (k : κ) : (empty : SortedMap κ ν).get? k = none := rfl

theorem get?_alter (m : SortedMap κ ν) (k k' : κ) (f : Option ν → ν) :
    (m.alter k f).get? k' = if k' = k then some (f (m.get? k)) else m.get? k' :=
  Entries.lookup_alter m.ascending

@[simp] theorem get?_insert (m : SortedMap κ ν) (k k' : κ) (v : ν) :
    (m.insert k v).get? k' = if k' = k then some v else m.get? k' :=
  get?_alter ..

@[simp] theorem get?_insertNew (m : SortedMap κ ν) (k k' : κ) (v : ν) :
    (m.insertNew k v).get? k' = if k' = k then some ((m.get? k).getD v) else m.get? k' :=
  get?_alter ..

theorem mem_entries_iff {m : SortedMap κ ν} {k : κ} {v : ν} :
    (k, v) ∈ m.entries ↔ m.get? k = some v :=
  (Entries.lookup_eq_some_iff m.ascending).symm

theorem mem_keys_iff {m : SortedMap κ ν} {k : κ} : k ∈ m.keys ↔ m.contains k := by
  rw [keys, contains, Option.isSome_iff_exists]
  constructor
  · intro h
    obtain ⟨⟨k', v⟩, hm, rfl⟩ := List.mem_map.1 h
    exact ⟨v, mem_entries_iff.1 hm⟩
  · rintro ⟨v, hv⟩
    exact List.mem_map.2 ⟨(k, v), mem_entries_iff.2 hv, rfl⟩

theorem ascending_keys (m : SortedMap κ ν) : m.keys.Pairwise (· < ·) :=
  List.pairwise_map.2 m.ascending

theorem ext_entries {m₁ m₂ : SortedMap κ ν} (h : m₁.entries = m₂.entries) : m₁ = m₂ := by
  cases m₁
  cases m₂
  subst h
  rfl

theorem ext_get? {m₁ m₂ : SortedMap κ ν} (h : ∀ k, m₁.get? k = m₂.get? k) : m₁ = m₂ := by
  refine ext_entries (Ordered.eq_of_pairwise (R := fun p q => p.1 < q.1)
    (fun p => Ordered.irrefl p.1) (fun h h' => Ordered.trans h h') m₁.ascending m₂.ascending
    fun p => ?_)
  rw [show p = (p.1, p.2) from rfl, mem_entries_iff, mem_entries_iff, h]

/-! ### Maps of lists -/

theorem contains_foldl_insert {l : List (κ × ν)} {m : SortedMap κ ν} {k : κ} :
    (l.foldl (fun m p => m.insert p.1 p.2) m).contains k ↔ k ∈ l.map Prod.fst ∨ m.contains k := by
  induction l generalizing m with
  | nil => simp
  | cons p rest ih =>
    have hinsert : (m.insert p.1 p.2).contains k ↔ k = p.1 ∨ m.contains k := by
      by_cases hk : k = p.1 <;> simp [contains, hk]
    rw [List.foldl_cons, ih, hinsert, List.map_cons, List.mem_cons]
    grind

theorem contains_ofList {l : List (κ × ν)} {k : κ} :
    (ofList l).contains k ↔ k ∈ l.map Prod.fst := by
  rw [ofList, contains_foldl_insert]
  simp [contains]

theorem get?_foldl_insert_of_not_mem {l : List (κ × ν)} {m : SortedMap κ ν} {k : κ}
    (h : k ∉ l.map Prod.fst) :
    (l.foldl (fun m p => m.insert p.1 p.2) m).get? k = m.get? k := by
  induction l generalizing m with
  | nil => rfl
  | cons p rest ih =>
    rw [List.map_cons, List.mem_cons, not_or] at h
    rw [List.foldl_cons, ih h.2, get?_insert, if_neg h.1]

theorem get?_ofList_of_mem {l : List (κ × ν)} (nodup : (l.map Prod.fst).Nodup) {p : κ × ν}
    (h : p ∈ l) : (ofList l).get? p.1 = some p.2 := by
  have key : ∀ m : SortedMap κ ν,
      (l.foldl (fun m p => m.insert p.1 p.2) m).get? p.1 = some p.2 := by
    induction l with
    | nil => exact absurd h List.not_mem_nil
    | cons q rest ih =>
      intro m
      obtain ⟨hq, hrest⟩ := List.nodup_cons.1 nodup
      rcases List.mem_cons.1 h with rfl | hp
      · -- no later entry has this key
        rw [List.foldl_cons, get?_foldl_insert_of_not_mem hq, get?_insert, if_pos rfl]
      · exact ih hrest hp _
  exact key empty

theorem get?_ofList_eq_some_iff {l : List (κ × ν)} (nodup : (l.map Prod.fst).Nodup) {k : κ}
    {v : ν} : (ofList l).get? k = some v ↔ (k, v) ∈ l := by
  refine ⟨?_, ?_⟩
  · intro h
    have hkey : k ∈ l.map Prod.fst := contains_ofList.1 (Option.isSome_iff_exists.2 ⟨v, h⟩)
    obtain ⟨⟨k', v'⟩, hmem, hk⟩ := List.mem_map.1 hkey
    have hv := get?_ofList_of_mem nodup hmem
    obtain rfl : k' = k := hk
    rw [h] at hv
    rw [Option.some.inj hv]
    exact hmem
  · intro h
    exact get?_ofList_of_mem nodup h

theorem ofList_entries (m : SortedMap κ ν) : ofList m.entries = m := by
  have hnodup : (m.entries.map Prod.fst).Nodup := m.ascending_keys.imp Ordered.ne_of_lt
  apply ext_get?
  intro k
  apply Option.ext
  intro v
  rw [get?_ofList_eq_some_iff hnodup, mem_entries_iff]

end SortedMap

end Acceptor
