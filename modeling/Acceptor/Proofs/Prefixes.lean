import Mathlib.Data.List.Infix
import Mathlib.Data.List.Nodup

/-!
  Acceptor.Proofs.Prefixes — the prefixes of words, in the order a tree meets them

  A tree that takes in words one after another, and each of them letter by letter, meets each
  prefix once. The first prefix is the empty one, and no prefix comes before its own.

  Main statements:
    1. `mem_prefixes_iff` — which prefixes there are.
    2. `meetBelow_prefixes` — one more word adds the prefixes met on its way.
    3. `prefixes_perm` — the order and the repetitions of the words change the order alone.
    4. `prefix_prefixes` — what was met stays, in its place.
    5. `PrefixOrdered.meet` — each comes after its own, in the order they are met.
-/

namespace Acceptor

/-- The prefixes of words, each once, in the order they are met. -/
def prefixes (words : List String) : List (List Char) :=
  ([] :: words.flatMap fun w => w.toList.inits).eraseDups

/-- The prefixes met so far, and one that may be new. -/
def meet (known : List (List Char)) (p : List Char) : List (List Char) :=
  if p ∈ known then known else known ++ [p]

/-- The prefixes met so far, and those on the way from one of them over the letters of a word. -/
def meetBelow (known : List (List Char)) (p : List Char) : List Char → List (List Char)
  | [] => known
  | c :: rest => meetBelow (meet known (p ++ [c])) (p ++ [c]) rest

/-! ## Which prefixes there are -/

theorem mem_prefixes_iff {words : List String} {p : List Char} :
    p ∈ prefixes words ↔ p = [] ∨ ∃ w ∈ words, p <+: w.toList := by
  simp only [prefixes, List.mem_eraseDups, List.mem_cons, List.mem_flatMap, List.mem_inits]

theorem mem_prefixes_of_append {words : List String} {p w : List Char}
    (h : p ++ w ∈ prefixes words) : p ∈ prefixes words := by
  rw [mem_prefixes_iff] at h ⊢
  rcases h with h | ⟨v, hv, h⟩
  · exact .inl (List.append_eq_nil_iff.1 h).1
  · exact .inr ⟨v, hv, (List.prefix_append p w).trans h⟩

theorem meet_of_mem {known : List (List Char)} {p : List Char} (h : p ∈ known) :
    meet known p = known :=
  if_pos h

theorem meet_of_not_mem {known : List (List Char)} {p : List Char} (h : p ∉ known) :
    meet known p = known ++ [p] :=
  if_neg h

theorem mem_meet_iff {known : List (List Char)} {p q : List Char} :
    q ∈ meet known p ↔ q ∈ known ∨ q = p := by
  by_cases h : p ∈ known
  · rw [meet_of_mem h]
    refine ⟨.inl, ?_⟩
    intro hq
    rcases hq with hq | rfl
    · exact hq
    · exact h
  · rw [meet_of_not_mem h, List.mem_append, List.mem_singleton]

theorem mem_meetBelow {known : List (List Char)} {p : List Char} (hp : p ∈ known)
    (w : List Char) : p ++ w ∈ meetBelow known p w := by
  induction w generalizing known p with
  | nil =>
    rw [List.append_nil]
    exact hp
  | cons c rest ih =>
    have hrest := ih (mem_meet_iff.2 (.inr rfl) : p ++ [c] ∈ meet known (p ++ [c]))
    rw [List.append_assoc, List.singleton_append] at hrest
    exact hrest

/-! ## One more word -/

theorem eraseDups_append_singleton (l : List (List Char)) (p : List Char) :
    (l ++ [p]).eraseDups = meet l.eraseDups p := by
  rw [List.eraseDups_append]
  by_cases h : p ∈ l
  · rw [meet_of_mem (List.mem_eraseDups.2 h)]
    simp [List.removeAll, h]
  · have hnew : [p].removeAll l = [p] := by simp [List.removeAll, h]
    rw [meet_of_not_mem (fun hp => h (List.mem_eraseDups.1 hp)), hnew]
    rfl

theorem nodup_meet {known : List (List Char)} (h : known.Nodup) (p : List Char) :
    (meet known p).Nodup := by
  by_cases hp : p ∈ known
  · rw [meet_of_mem hp]
    exact h
  · rw [meet_of_not_mem hp]
    exact h.append (List.nodup_singleton p) (List.disjoint_singleton.2 hp)

theorem nodup_eraseDups (l : List (List Char)) : l.eraseDups.Nodup := by
  induction l using List.reverseRecOn with
  | nil => exact List.nodup_nil
  | append_singleton l p ih =>
    rw [eraseDups_append_singleton]
    exact nodup_meet ih p

theorem nodup_prefixes (words : List String) : (prefixes words).Nodup := nodup_eraseDups _

/-- Words in another order and repeated have the same prefixes, in another order. -/
theorem prefixes_perm {words others : List String} (same : ∀ w, w ∈ words ↔ w ∈ others) :
    (prefixes words).Perm (prefixes others) := by
  rw [List.perm_ext_iff_of_nodup (nodup_prefixes words) (nodup_prefixes others)]
  intro p
  simp only [mem_prefixes_iff, same]

theorem idxOf_nil_prefixes (words : List String) : (prefixes words).idxOf [] = 0 := by
  rw [prefixes, List.eraseDups_cons, List.idxOf_cons_self]

theorem tail_inits_cons (c : Char) (w : List Char) :
    (c :: w).inits.tail = [c] :: w.inits.tail.map (c :: ·) := by
  rw [List.inits_cons, List.tail_cons]
  cases w with
  | nil => rfl
  | cons d rest => rw [List.inits_cons, List.tail_cons, List.map_cons]

theorem meetBelow_eraseDups (l : List (List Char)) (p w : List Char) :
    meetBelow l.eraseDups p w = (l ++ w.inits.tail.map (p ++ ·)).eraseDups := by
  induction w generalizing l p with
  | nil =>
    have htail : ([] : List Char).inits.tail = [] := rfl
    rw [htail, List.map_nil, List.append_nil]
    rfl
  | cons c rest ih =>
    -- after the first letter `p` and that letter take the place of `p`
    have hmap : (rest.inits.tail.map (c :: ·)).map (p ++ ·) =
        rest.inits.tail.map ((p ++ [c]) ++ ·) := by
      rw [List.map_map]
      apply List.map_congr_left
      intro q _
      show p ++ c :: q = p ++ [c] ++ q
      rw [List.append_assoc, List.singleton_append]
    calc meetBelow l.eraseDups p (c :: rest)
        = meetBelow (l ++ [p ++ [c]]).eraseDups (p ++ [c]) rest := by
          rw [meetBelow, eraseDups_append_singleton]
      _ = (l ++ [p ++ [c]] ++ rest.inits.tail.map ((p ++ [c]) ++ ·)).eraseDups := ih _ _
      _ = (l ++ (c :: rest).inits.tail.map (p ++ ·)).eraseDups := by
          rw [tail_inits_cons, List.map_cons, hmap, List.append_assoc, List.singleton_append]

/-- The prefixes of words and one more: those met before, and those on the way of the last. -/
theorem meetBelow_prefixes (words : List String) (w : String) :
    meetBelow (prefixes words) [] w.toList = prefixes (words ++ [w]) := by
  -- the last word's own empty prefix is not met again
  have hroot : (([] :: words.flatMap fun v : String => v.toList.inits) ++ [[]]).eraseDups =
      prefixes words := by
    rw [eraseDups_append_singleton]
    exact meet_of_mem (List.mem_eraseDups.2 List.mem_cons_self)
  have hinits : w.toList.inits = [] :: w.toList.inits.tail := by
    cases w.toList <;> rfl
  rw [← hroot, meetBelow_eraseDups, prefixes, List.flatMap_append, List.flatMap_singleton]
  conv => rhs; rw [hinits]
  simp

/-! ## What was met stays -/

theorem prefix_meet (known : List (List Char)) (p : List Char) : known <+: meet known p := by
  unfold meet
  split
  · exact List.prefix_rfl
  · exact List.prefix_append known [p]

theorem prefix_meetBelow (known : List (List Char)) (p w : List Char) :
    known <+: meetBelow known p w := by
  induction w generalizing known p with
  | nil => exact List.prefix_rfl
  | cons c rest ih => exact (prefix_meet known (p ++ [c])).trans (ih _ _)

theorem prefix_prefixes (words more : List String) :
    prefixes words <+: prefixes (words ++ more) := by
  induction more generalizing words with
  | nil => rw [List.append_nil]
  | cons w rest ih =>
    have hrest := ih (words ++ [w])
    rw [List.append_assoc, List.singleton_append] at hrest
    rw [← meetBelow_prefixes] at hrest
    exact (prefix_meetBelow _ [] w.toList).trans hrest

theorem length_meetBelow_le (known : List (List Char)) (p w : List Char) :
    known.length ≤ (meetBelow known p w).length :=
  (prefix_meetBelow known p w).length_le

theorem length_prefixes_le (words more : List String) :
    (prefixes words).length ≤ (prefixes (words ++ more)).length :=
  (prefix_prefixes words more).length_le

/-! ## The order in which they are met -/

/-- Whether prefixes begin with the empty one and each comes after its own. -/
structure PrefixOrdered (known : List (List Char)) : Prop where
  root : known.head? = some []
  earlier : ∀ p c, p ++ [c] ∈ known → p ∈ known ∧ known.idxOf p < known.idxOf (p ++ [c])

namespace PrefixOrdered

variable {known : List (List Char)}

theorem root_mem (h : PrefixOrdered known) : [] ∈ known := List.mem_of_head? h.root

theorem idxOf_root (h : PrefixOrdered known) : known.idxOf [] = 0 := by
  cases known with
  | nil => exact absurd h.root (by simp)
  | cons p rest =>
    rw [Option.some.inj h.root, List.idxOf_cons_self]

theorem of_append (h : PrefixOrdered known) {p w : List Char} (hw : p ++ w ∈ known) :
    p ∈ known := by
  induction w using List.reverseRecOn with
  | nil =>
    rw [List.append_nil] at hw
    exact hw
  | append_singleton w c ih =>
    rw [← List.append_assoc] at hw
    exact ih (h.earlier _ c hw).1

theorem idxOf_meet {p q : List Char} (hq : q ∈ known) :
    (Acceptor.meet known p).idxOf q = known.idxOf q := by
  unfold Acceptor.meet
  split
  · rfl
  · exact List.idxOf_append_of_mem hq

theorem meet (h : PrefixOrdered known) {p : List Char} (hp : p ∈ known) (c : Char) :
    PrefixOrdered (meet known (p ++ [c])) := by
  by_cases hmem : p ++ [c] ∈ known
  · rw [meet_of_mem hmem]
    exact h
  · refine ⟨?_, ?_⟩
    · rw [meet_of_not_mem hmem, List.head?_append, h.root]
      rfl
    · intro q d hq
      rcases mem_meet_iff.1 hq with hq | heq
      · obtain ⟨hmem', hlt⟩ := h.earlier q d hq
        refine ⟨mem_meet_iff.2 (.inl hmem'), ?_⟩
        rw [idxOf_meet hmem', idxOf_meet hq]
        exact hlt
      · -- the new one comes last
        obtain ⟨rfl, hd⟩ := List.append_inj' heq rfl
        rw [heq]
        refine ⟨mem_meet_iff.2 (.inl hp), ?_⟩
        rw [idxOf_meet hp, meet_of_not_mem hmem, List.idxOf_append_of_notMem hmem]
        have hlt := List.idxOf_lt_length_iff.2 hp
        omega

end PrefixOrdered

end Acceptor
