import Acceptor.Proofs.Encoding
import Acceptor.Proofs.Extension
import Acceptor.Proofs.TreeShape
import Mathlib.Data.List.Perm.Subperm

/-!
  Acceptor.Proofs.Resume — trees that are put away and grown on

  A tree may be built, kept as a snapshot and taken out again, and a new builder goes on with it.
  The new builder reads its counter off the state set, in which the tree has the numbers from zero
  on; so it goes on with the number that the old one had come to, and the samples that follow find
  what they would have found. Only the count of samples begins anew, and nothing depends on it.

  Main statements:
    1. `PrefixTree.sampleAll_counting` — samples go in alike, however many were counted before.
    2. `PrefixTree.Grown.kept?_eq_some` — a tree comes back from where it was kept as it was.
    3. `PrefixTree.Grown.extend_eq_ok` — a builder that goes on with a tree is where the tree is.
    4. `PrefixTree.resumed_as_if_never_stopped` — all of it, wherever samples are interrupted.
-/

namespace Acceptor

/-- The automaton that comes back after its snapshot was kept, where it was kept at all. -/
def Automaton.kept? {α : Type} [Letter α] [Json.Form α] [Binary.Form α] (a : Automaton α)
    (storage : Option Snapshot.Carrier) (id : Uuid) (takenAt : Instant) : Option (Automaton α) :=
  match storage with
  | none => some a
  | some carrier => ((a.snapshot id takenAt).carry carrier).bind (·.restore.toOption)

theorem Automaton.keys_states {α : Type} [Letter α] (a : Automaton α) :
    a.states.keys = a.stateList.map State.id := by
  simp [SortedMap.keys, stateList]

theorem Automaton.length_alphabet_le (a : Automaton Char) : a.alphabet.toList.length ≤ UInt32.size := by
  have hnodup : (a.alphabet.toList.map Char.toNat).Nodup := by
    refine List.pairwise_map.2 (a.alphabet.ascending_toList.imp ?_)
    intro c d hlt heq
    exact Ordered.ne_of_lt hlt (Char.toNat_inj.1 heq)
  have hbelow : a.alphabet.toList.map Char.toNat ⊆ List.range UInt32.size := by
    intro n hn
    obtain ⟨c, _, rfl⟩ := List.mem_map.1 hn
    exact List.mem_range.2 c.val.toNat_lt
  have hle := (List.subperm_of_subset hnodup hbelow).length_le
  rwa [List.length_map, List.length_range] at hle

namespace PrefixTree

/-! ## The count of samples -/

/-- A tree with another count of samples. -/
def counting (t : PrefixTree) (n : Nat) : PrefixTree := { t with samples := n }

theorem descend_counting (t : PrefixTree) (n : Nat) (q : State) (c : Char) :
    (t.counting n).descend q c = ((t.descend q c).1.counting n, (t.descend q c).2) := by
  simp only [descend, counting]
  cases t.automaton.ruleFor? q.id c with
  | some r => rfl
  | none =>
    cases t.registry.derive q with
    | error e => rfl
    | ok result =>
      dsimp only
      cases t.automaton.addRule ⟨q, c, result.1⟩ <;> rfl

theorem descendAll_counting (t : PrefixTree) (n : Nat) (q : State) (w : List Char) :
    (t.counting n).descendAll q w = ((t.descendAll q w).1.counting n, (t.descendAll q w).2) := by
  induction w generalizing t q with
  | nil => rfl
  | cons c rest ih =>
    rw [descendAll, descendAll, descend_counting]
    obtain ⟨t', result⟩ := t.descend q c
    cases result with
    | error e => rfl
    | ok next => exact ih t' next

theorem sample_counting (t : PrefixTree) (n : Nat) (s : String) :
    (t.counting n).sample s = (t.sample s).map (counting · (n + 1)) := by
  have hdescend : (t.counting n).descendAll (t.counting n).automaton.initial s.toList = _ :=
    descendAll_counting t n t.automaton.initial s.toList
  rw [sample, sample, insert, insert, hdescend]
  obtain ⟨t', result⟩ := t.descendAll t.automaton.initial s.toList
  cases result with
  | error e => cases e <;> rfl
  | ok q => rfl

/-- Samples go in alike, however many were counted before them. -/
theorem sampleAll_counting (t : PrefixTree) (n : Nat) (samples : List String) :
    (t.counting n).sampleAll samples =
      (t.sampleAll samples).map (counting · (n + samples.length)) := by
  induction samples generalizing t n with
  | nil => rfl
  | cons s rest ih =>
    rw [sampleAll, sampleAll, List.foldlM_cons, List.foldlM_cons, sample_counting]
    cases t.sample s with
    | error e => rfl
    | ok t' =>
      have hrest := ih t' (n + 1)
      rw [Nat.add_assoc, Nat.add_comm 1] at hrest
      exact hrest

theorem sampleAll_append (t : PrefixTree) (before after : List String) :
    t.sampleAll (before ++ after) = t.sampleAll before >>= fun t => t.sampleAll after := by
  rw [sampleAll, List.foldlM_append]
  rfl

/-! ## The cursor -/

theorem current_descend (t : PrefixTree) (q : State) (c : Char) :
    (t.descend q c).1.automaton.current = t.automaton.current := by
  apply descend_cases (P := fun p => p.1.automaton.current = t.automaton.current)
  case there => exact fun _ _ => rfl
  case exhausted => exact fun _ _ => rfl
  case refused => exact fun _ _ _ _ _ _ => rfl
  case grown =>
    intro next registry n automaton _ _ hadd
    obtain ⟨_, _, rfl⟩ := Automaton.addRule_eq_ok_iff.1 hadd
    rfl

theorem current_insert (t : PrefixTree) (s : String) :
    (t.insert s).1.automaton.current = t.automaton.current := by
  have hdescend : (t.descendAll t.automaton.initial s.toList).1.automaton.current =
      t.automaton.current :=
    descendAll_induction (R := fun t t' => t'.automaton.current = t.automaton.current)
      (fun _ => rfl) (fun h h' => h'.trans h) current_descend t t.automaton.initial s.toList
  apply insert_cases (P := fun p => p.1.automaton.current = t.automaton.current)
  case failed =>
    intro t' e hresult
    rw [hresult] at hdescend
    exact hdescend
  case ended =>
    intro t' q hresult
    rw [hresult] at hdescend
    refine Automaton.settle_induction (P := fun a => a.current = t.automaton.current) hdescend ?_
    intro new automaton hadd
    obtain ⟨_, _, rfl⟩ := Automaton.addFinal_eq_ok_iff.1 hadd
    exact hdescend

theorem current_sampleAll {t t' : PrefixTree} {samples : List String}
    (ok : t.sampleAll samples = .ok t') : t'.automaton.current = t.automaton.current := by
  induction samples generalizing t with
  | nil => rw [← Except.ok.inj ok]
  | cons s rest ih =>
    have hinsert := current_insert t s
    rw [sampleAll, List.foldlM_cons, sample] at ok
    cases hmiddle : t.insert s with
    | mk middle result =>
      rw [hmiddle] at ok hinsert
      cases result with
      | error e => exact absurd ok (by simp [bind, Except.bind])
      | ok id => exact (ih ok).trans hinsert

namespace Grown

variable {t : PrefixTree} {known : List (List Char)} {words : List String}

/-! ## Where a tree was kept -/

theorem length_stateList (h : Grown t known words) :
    t.automaton.stateList.length = known.length := by
  rw [h.stateList_eq, List.length_map, List.length_range]

theorem nodup_destinations (h : Grown t known words) :
    (t.automaton.rules.map (·.destination.id)).Nodup := by
  apply List.pairwise_map.2
  refine List.Pairwise.imp_of_mem ?_ h.wellFormed.distinct
  intro r s hr hs hdistinct heq
  apply hdistinct
  obtain ⟨p, c, hp, rfl⟩ := (h.rules r).1 hr
  obtain ⟨q, d, hq, rfl⟩ := (h.rules s).1 hs
  obtain ⟨rfl, hcd⟩ := List.append_inj' (h.stateOf_inj hp hq heq) rfl
  obtain rfl := List.singleton_inj.1 hcd
  exact Rule.same_iff.2 ⟨rfl, rfl, rfl⟩

theorem length_le (h : Grown t known words) {ids : List StateId} (nodup : ids.Nodup)
    (inside : ∀ q ∈ ids, t.automaton.containsState q) : ids.length ≤ known.length := by
  have hsubset : ids ⊆ t.automaton.states.keys :=
    fun q hq => SortedMap.mem_keys_iff.2 (inside q hq)
  have hle := (List.subperm_of_subset nodup hsubset).length_le
  rw [Automaton.keys_states, List.length_map, h.length_stateList] at hle
  exact hle

/-- The counts of a tree's snapshot fit, since its states have numbers. -/
theorem fits_snapshot (h : Grown t known words) (id : Uuid) (takenAt : Instant) :
    Binary.Form.Fits (t.automaton.snapshot id takenAt) := by
  have hstates : t.automaton.stateList.length < UInt64.size := by
    rw [h.length_stateList]
    exact h.length_lt
  have hfinals : t.automaton.finals.toList.length ≤ known.length := by
    apply h.length_le t.automaton.finals.nodup_toList
    exact fun q hq => h.wellFormed.finals q (SortedSet.mem_toList.1 hq)
  have hrules : (t.automaton.rules.map (·.destination.id)).length ≤ known.length := by
    apply h.length_le h.nodup_destinations
    intro q hq
    obtain ⟨r, hr, rfl⟩ := List.mem_map.1 hq
    exact (h.wellFormed.endpoints r hr).2
  rw [List.length_map] at hrules
  have hlimit := h.length_lt
  refine Snapshot.fits_iff.2 ⟨⟨hstates, ?_, ?_, ?_⟩, fun _ _ => trivial, fun _ _ => trivial⟩
  · exact Nat.lt_of_le_of_lt hfinals hlimit
  · exact Nat.lt_of_le_of_lt t.automaton.length_alphabet_le (by decide)
  · exact Nat.lt_of_le_of_lt hrules hlimit

theorem kept?_eq_some (h : Grown t known words)
    (cursor : t.automaton.current = t.automaton.initial.id) (storage : Option Snapshot.Carrier)
    (id : Uuid) (takenAt : Instant) : t.automaton.kept? storage id takenAt = some t.automaton := by
  have hclean : t.automaton.checkInvariants = [] :=
    h.wellFormed.checkInvariants_eq_nil_iff.2 fun _ => h.deterministic
  have hrestart : t.automaton.restart = t.automaton := by
    rw [Automaton.restart, ← cursor]
  cases storage with
  | none => rfl
  | some carrier =>
    rw [Automaton.kept?, Snapshot.carry_eq_some fun _ => h.fits_snapshot id takenAt,
      Option.bind_some, h.wellFormed.restore_snapshot, if_pos hclean, hrestart]
    rfl

/-! ## Where a builder goes on -/

theorem toNat_lastId (h : Grown t known words) :
    (lastId t.automaton).toNat + 1 = known.length := by
  have hpos : 0 < known.length := List.length_pos_of_mem h.ordered.root_mem
  have hlast : t.automaton.states.keys.getLast? = some (stateAt (known.length - 1)).id := by
    rw [Automaton.keys_states, h.stateList_eq, List.getLast?_map, List.getLast?_map, List.getLast?_range,
      if_neg (Nat.ne_of_gt hpos)]
    rfl
  have hlt := h.length_lt
  rw [lastId, hlast, Option.getD_some, toNat_stateAt (by omega)]
  omega

/-- A builder that goes on with a tree is where the tree is, but has counted no sample. -/
theorem extend_eq_ok (h : Grown t known words) : extend t.automaton = .ok (t.counting 0) := by
  have hresume : Registry.resumeAfter (lastId t.automaton) = .ok t.registry := by
    rw [Registry.resumeAfter_eq_ok_iff, h.toNat_lastId]
    exact ⟨h.length_lt, h.issued⟩
  rw [extend, hresume]
  rfl

end Grown

/-! ## Stopped and resumed -/

/-- Samples are inserted and the tree is built, kept or not kept as a snapshot, text or bytes, and
gone on with. It comes back; and whatever is inserted then, the new builder does what the old one
would have done without the interruption, errors included: its automaton is the same, and its
registry, and it has counted the later samples alone. While there are identities for all prefixes
there is no error. -/
theorem resumed_as_if_never_stopped (policy : Policy) (before after : List String)
    (room : (prefixes before).length < UInt64.size) (storage : Option Snapshot.Carrier) (id : Uuid)
    (takenAt : Instant) :
    ∃ t a r, (empty.withPolicy policy).sampleAll before = .ok t ∧
      t.build.kept? storage id takenAt = some a ∧ extend a = .ok r ∧
      r.sampleAll after = ((empty.withPolicy policy).sampleAll (before ++ after)).map
        (counting · after.length) ∧
      ((prefixes (before ++ after)).length < UInt64.size →
        ∃ resumed whole, r.sampleAll after = .ok resumed ∧
          (empty.withPolicy policy).sampleAll (before ++ after) = .ok whole ∧
          resumed.build = whole.build ∧ resumed.registry = whole.registry ∧
          resumed.samples = after.length ∧ whole.samples = before.length + after.length) := by
  have hstart := Grown.empty.withPolicy policy
  obtain ⟨t, hbefore, h⟩ := hstart.sampleAll before room
  have hcursor : t.automaton.current = t.automaton.initial.id := by
    rw [current_sampleAll hbefore, h.initial]
    rfl
  have hafter : (t.counting 0).sampleAll after =
      ((empty.withPolicy policy).sampleAll (before ++ after)).map (counting · after.length) := by
    rw [sampleAll_counting, Nat.zero_add, sampleAll_append, hbefore]
    rfl
  refine ⟨t, t.build, t.counting 0, hbefore, h.kept?_eq_some hcursor storage id takenAt,
    h.extend_eq_ok, hafter, ?_⟩
  intro hroom
  obtain ⟨whole, hwhole, h'⟩ := hstart.sampleAll (before ++ after) hroom
  rw [hwhole] at hafter
  refine ⟨whole.counting after.length, whole, hafter, hwhole, rfl, rfl, rfl, ?_⟩
  rw [h'.samples, List.nil_append, List.length_append]

/-- Some samples, and others that share prefixes with them: wherever the tree of the first ones is
kept, the samples that follow make of it the tree of all. -/
theorem resumed_as_if_never_stopped_with_shared_prefixes :
    let before := ["ab", "", "a𝄞"]
    let after := ["abc", "b", "ab"]
    let id : Uuid := ⟨List.replicate 16 7, rfl⟩
    let takenAt : Instant :=
      ⟨⟨2024, 2, 29, by decide, by decide, by decide⟩, 0, 0, by decide, by decide, by decide⟩
    (prefixes before).length = 4 ∧ (prefixes (before ++ after)).length = 6 ∧
    ∀ storage, ∃ t a r resumed whole, (empty.withPolicy .allow).sampleAll before = .ok t ∧
      t.build.kept? storage id takenAt = some a ∧ extend a = .ok r ∧
      r.sampleAll after = .ok resumed ∧
      (empty.withPolicy .allow).sampleAll (before ++ after) = .ok whole ∧
      resumed.build = whole.build ∧ resumed.samples = 3 ∧ whole.samples = 6 := by
  intro before after id takenAt
  have hbefore : (prefixes before).length = 4 := by decide
  have hall : (prefixes (before ++ after)).length = 6 := by decide
  refine ⟨hbefore, hall, ?_⟩
  intro storage
  obtain ⟨t, a, r, ht, ha, hr, _, hwhole⟩ := resumed_as_if_never_stopped .allow before after
    (by rw [hbefore]; decide) storage id takenAt
  obtain ⟨resumed, whole, hresumed, hwhole, hsame, _, hlater, hcount⟩ :=
    hwhole (by rw [hall]; decide)
  exact ⟨t, a, r, resumed, whole, ht, ha, hr, hresumed, hwhole, hsame, hlater, hcount⟩

end PrefixTree

end Acceptor
