import Acceptor.SortedMap

/-!
  Acceptor.SortedSet — finite sets kept in ascending order

  A set is a sorted map that stores nothing with its keys. It is seen through `∈` and through
  `toList`, its members in ascending order.

  Main statements:
    1. `SortedSet.mem_insert` — inserting adds one member and loses none.
    2. `SortedSet.ext_mem` — sets with the same members are equal.
    3. `SortedSet.mem_ofList` — a list's set has exactly the list's members.
    4. `SortedSet.erase_insert` — taking out what was put in gives the set back.
-/

namespace Acceptor

variable {α : Type} [Ordered α]

/-- A finite set, its members in ascending order. -/
structure SortedSet (α : Type) [Ordered α] where
  members : SortedMap α Unit

namespace SortedSet

def empty : SortedSet α := ⟨.empty⟩

def contains (s : SortedSet α) (a : α) : Bool := s.members.contains a

instance : Membership α (SortedSet α) where
  mem s a := s.contains a = true

instance (s : SortedSet α) (a : α) : Decidable (a ∈ s) :=
  inferInstanceAs (Decidable (s.contains a = true))

def insert (s : SortedSet α) (a : α) : SortedSet α := ⟨s.members.insert a ()⟩

def toList (s : SortedSet α) : List α := s.members.keys

/-- The set of a list's members. -/
def ofList (l : List α) : SortedSet α := l.foldl insert empty

/-- The set with one member less. -/
def erase (s : SortedSet α) (a : α) : SortedSet α := ofList (s.toList.filter (· ≠ a))

def size (s : SortedSet α) : Nat := s.members.size

theorem mem_iff_get? {s : SortedSet α} {a : α} : a ∈ s ↔ s.members.get? a = some () := by
  show (s.members.get? a).isSome = true ↔ _
  cases s.members.get? a <;> simp

@[simp] theorem not_mem_empty (a : α) : a ∉ (empty : SortedSet α) := by
  simp [mem_iff_get?, empty]

@[simp] theorem mem_insert {s : SortedSet α} {a b : α} : a ∈ s.insert b ↔ a = b ∨ a ∈ s := by
  simp only [mem_iff_get?, insert, SortedMap.get?_insert]
  split <;> simp_all

@[simp] theorem mem_toList {s : SortedSet α} {a : α} : a ∈ s.toList ↔ a ∈ s :=
  SortedMap.mem_keys_iff

theorem ascending_toList (s : SortedSet α) : s.toList.Pairwise (· < ·) :=
  s.members.ascending_keys

theorem nodup_toList (s : SortedSet α) : s.toList.Nodup :=
  s.ascending_toList.imp Ordered.ne_of_lt

theorem length_toList (s : SortedSet α) : s.toList.length = s.size := List.length_map _

theorem ext_mem {s t : SortedSet α} (h : ∀ a, a ∈ s ↔ a ∈ t) : s = t := by
  obtain ⟨m⟩ := s
  obtain ⟨n⟩ := t
  congr 1
  refine SortedMap.ext_get? fun k => ?_
  have hk := h k
  simp only [mem_iff_get?] at hk
  cases hm : m.get? k <;> cases hn : n.get? k <;> simp_all

theorem mem_foldl_insert {l : List α} {s : SortedSet α} {a : α} :
    a ∈ l.foldl insert s ↔ a ∈ l ∨ a ∈ s := by
  induction l generalizing s with
  | nil => simp
  | cons b rest ih =>
    rw [List.foldl_cons, ih, mem_insert, List.mem_cons]
    grind

@[simp] theorem mem_ofList {l : List α} {a : α} : a ∈ ofList l ↔ a ∈ l := by
  simp [ofList, mem_foldl_insert]

@[simp] theorem mem_erase {s : SortedSet α} {a b : α} : b ∈ s.erase a ↔ b ∈ s ∧ b ≠ a := by
  rw [erase, mem_ofList, List.mem_filter, mem_toList, decide_eq_true_eq]

theorem ofList_toList (s : SortedSet α) : ofList s.toList = s := by
  apply ext_mem
  intro a
  rw [mem_ofList, mem_toList]

theorem insert_of_mem {s : SortedSet α} {a : α} (h : a ∈ s) : s.insert a = s := by
  apply ext_mem
  intro b
  rw [mem_insert]
  refine ⟨?_, .inr⟩
  rintro (rfl | hb)
  · exact h
  · exact hb

theorem erase_insert {s : SortedSet α} {a : α} (h : a ∉ s) : (s.insert a).erase a = s := by
  apply ext_mem
  intro b
  rw [mem_erase, mem_insert]
  refine ⟨fun hb => hb.1.resolve_left hb.2, fun hb => ⟨.inr hb, ?_⟩⟩
  intro heq
  exact h (heq ▸ hb)

end SortedSet

end Acceptor
