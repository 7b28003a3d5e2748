import Acceptor.Proofs.Check
import Mathlib.Data.List.Dedup

/-!
  Acceptor.Proofs.Restore — which snapshots are restored, and to what

  A snapshot is assembled first and checked afterwards: listings become sets, of states with one
  identity the last is kept, and the initial state is sought in the listing itself. The checks
  still refuse what is malformed and nothing else, so what is restored says what the snapshot
  says, in whatever order and however often the snapshot says it.

  Main statements:
    1. `Snapshot.violations_eq_nil_iff` — the checks find nothing exactly in well-formed snapshots.
    2. `Snapshot.assemble_of_rearranged` — what is listed counts, and not the order.
    3. `Snapshot.snapshot_assemble` — a snapshot of what is restored is the one it came from, with
       its listings in order.
    4. `Snapshot.restored_iff_well_formed` — all of it.
-/

namespace Acceptor

variable {α : Type} [Letter α]

/-! ## Listings as sets -/

/-- The members of a listing, sorted and without repetitions. -/
def ascending {β : Type} [Ordered β] (l : List β) : List β :=
  l.dedup.mergeSort fun a b => ¬ b < a

theorem SortedSet.toList_ofList {β : Type} [Ordered β] (l : List β) :
    (SortedSet.ofList l).toList = ascending l := by
  refine Ordered.eq_of_pairwise Ordered.irrefl Ordered.trans (ascending_toList _) ?_ ?_
  · have hnodup : (ascending l).Nodup := (List.mergeSort_perm _ _).nodup_iff.2 l.nodup_dedup
    have hsorted := Ordered.pairwise_mergeSort (R := fun a b : β => a < b) Ordered.asymm
      Ordered.not_lt_trans l.dedup
    refine (List.pairwise_and_iff.2 ⟨hsorted, hnodup⟩).imp ?_
    intro a b h
    exact (Ordered.not_lt_iff.1 h.1).resolve_left (Ne.symm h.2)
  · intro a
    rw [mem_toList, mem_ofList, ascending, List.mem_mergeSort, List.mem_dedup]

namespace Snapshot

/-! ## What is checked -/

def ids (s : Snapshot α) : List StateId := s.states.map State.id

/-- What a snapshot has to say to be restored. -/
structure WellFormed (s : Snapshot α) : Prop where
  /-- Each state is listed once. -/
  listing : s.ids.Nodup
  initial : s.initial ∈ s.ids
  finals : ∀ q ∈ s.finals, q ∈ s.ids
  endpoints : ∀ r ∈ s.rules, r.source.id ∈ s.ids ∧ r.destination.id ∈ s.ids
  symbols : ∀ r ∈ s.rules, r.symbol ∈ s.alphabet
  /-- No two rules have the same source, symbol and destination. -/
  distinct : s.rules.Pairwise fun r t => ¬ r.same t
  /-- No two rules wait for the same, where the policy refuses that. -/
  deterministic : s.policy = .reject → (s.rules.map Rule.trigger).Nodup

theorem containsState_assemble {s : Snapshot α} {q : StateId} :
    s.assemble.containsState q ↔ q ∈ s.ids := by
  rw [ids, ← s.map_fst_states]
  exact SortedMap.contains_ofList

theorem isFinal_assemble {s : Snapshot α} {q : StateId} :
    s.assemble.isFinal q ↔ q ∈ s.finals :=
  SortedSet.mem_ofList

theorem containsSymbol_assemble {s : Snapshot α} {x : α} :
    s.assemble.containsSymbol x ↔ x ∈ s.alphabet :=
  SortedSet.mem_ofList

theorem rules_assemble (s : Snapshot α) : s.assemble.rules = s.rules :=
  Rulebook.rules_ofList s.rules

theorem violations_eq_nil_iff {s : Snapshot α} : s.violations = [] ↔ s.WellFormed := by
  have hinitial : s.assemble.containsState s.assemble.initial.id ↔ s.initial ∈ s.ids := by
    rw [containsState_assemble]
    exact iff_of_eq (congrArg (· ∈ s.ids) s.id_initialState)
  have hdeterminism : (if s.assemble.policy = .reject then
      Checker.determinismReport s.assemble else []) = [] ↔
        (s.policy = .reject → (s.rules.map Rule.trigger).Nodup) := by
    have hpolicy : s.assemble.policy = s.policy := rfl
    rw [hpolicy, ← s.rules_assemble, ← Checker.determinismReport_eq_nil_iff]
    split <;> simp_all
  rw [violations, List.append_eq_nil_iff, duplicateStates_eq_nil_iff,
    Automaton.checkInvariants_eq]
  -- the cursor stands on the initial state, so its own check asks nothing new
  have hcursor : s.assemble.current = s.assemble.initial.id := rfl
  simp only [List.append_eq_nil_iff, reportUnless_eq_nil_iff, Automaton.finalReport_eq_nil_iff,
    Checker.ruleReport_eq_nil_iff, nodup_texts_iff, hcursor, hinitial, hdeterminism,
    rules_assemble, containsState_assemble, containsSymbol_assemble, isFinal_assemble]
  refine ⟨?_, ?_⟩
  · rintro ⟨⟨hlisting, _⟩, ⟨⟨⟨hin, _⟩, hfinals⟩, hrules, hdistinct, _⟩, hpolicy⟩
    exact ⟨hlisting, hin, hfinals, fun r hr => (hrules r hr).1, fun r hr => (hrules r hr).2,
      hdistinct, hpolicy⟩
  · intro h
    refine ⟨⟨h.listing, by simp⟩, ⟨⟨⟨h.initial, h.initial⟩, h.finals⟩, ?_, h.distinct, by simp⟩,
      h.deterministic⟩
    intro r hr
    exact ⟨h.endpoints r hr, h.symbols r hr⟩

/-! ## What is restored -/

/-- Whether an automaton is as a snapshot says. -/
structure Describes (s : Snapshot α) (a : Automaton α) : Prop where
  policy : a.policy = s.policy
  /-- The states are those listed, with their ancestors. -/
  states : ∀ q, q ∈ a.stateList ↔ q ∈ s.states
  /-- The initial state is the one listed under its identity, with its ancestor. -/
  initial : a.initial ∈ s.states ∧ a.initial.id = s.initial
  finals : ∀ q, a.isFinal q ↔ q ∈ s.finals
  alphabet : ∀ x, a.containsSymbol x ↔ x ∈ s.alphabet
  rules : a.rules = s.rules
  cursor : a.current = a.initial.id

theorem WellFormed.eq_of_id_eq {s : Snapshot α} (h : s.WellFormed) {p q : State}
    (hp : p ∈ s.states) (hq : q ∈ s.states) (hid : p.id = q.id) : p = q :=
  List.inj_on_of_nodup_map h.listing hp hq hid

theorem WellFormed.get?_assemble {s : Snapshot α} (h : s.WellFormed) {q : State} :
    s.assemble.states.get? q.id = some q.ancestor ↔ q ∈ s.states := by
  have hnodup : ((s.states.map fun q => (q.id, q.ancestor)).map Prod.fst).Nodup := by
    rw [map_fst_states]
    exact h.listing
  have hget := SortedMap.get?_ofList_eq_some_iff hnodup (k := q.id) (v := q.ancestor)
  have hpair : (q.id, q.ancestor) ∈ s.states.map (fun q => (q.id, q.ancestor)) ↔ q ∈ s.states := by
    rw [List.mem_map]
    refine ⟨?_, fun hq => ⟨q, hq, rfl⟩⟩
    rintro ⟨⟨i, a⟩, hmem, heq⟩
    obtain ⟨hi, ha⟩ := Prod.mk.inj heq
    obtain ⟨i', a'⟩ := q
    obtain rfl : i = i' := hi
    obtain rfl : a = a' := ha
    exact hmem
  exact hget.trans hpair

theorem WellFormed.mem_stateList_assemble {s : Snapshot α} (h : s.WellFormed) {q : State} :
    q ∈ s.assemble.stateList ↔ q ∈ s.states :=
  Automaton.mem_stateList_iff.trans h.get?_assemble

theorem WellFormed.describes {s : Snapshot α} (h : s.WellFormed) : Describes s s.assemble where
  policy := rfl
  states := fun _ => h.mem_stateList_assemble
  initial := ⟨mem_initialState h.initial, s.id_initialState⟩
  finals := fun _ => isFinal_assemble
  alphabet := fun _ => containsSymbol_assemble
  rules := s.rules_assemble
  cursor := rfl

/-! ## The order of a snapshot's listings -/

/-- Whether two snapshots differ in nothing but marks and the order of their listings, and in how
often they name a final state or a symbol. -/
structure Rearranged (s t : Snapshot α) : Prop where
  version : s.version = t.version
  policy : s.policy = t.policy
  states : s.states.Perm t.states
  initial : s.initial = t.initial
  finals : ∀ q, q ∈ s.finals ↔ q ∈ t.finals
  alphabet : ∀ x, x ∈ s.alphabet ↔ x ∈ t.alphabet
  rules : s.rules = t.rules

omit [Letter α] in
theorem Rearranged.symm {s t : Snapshot α} (h : Rearranged s t) : Rearranged t s :=
  ⟨h.version.symm, h.policy.symm, h.states.symm, h.initial.symm, fun q => (h.finals q).symm,
    fun x => (h.alphabet x).symm, h.rules.symm⟩

theorem Rearranged.wellFormed {s t : Snapshot α} (h : Rearranged s t) (hs : s.WellFormed) :
    t.WellFormed := by
  have hids : s.ids.Perm t.ids := h.states.map State.id
  refine ⟨hids.nodup_iff.1 hs.listing, ?_, ?_, ?_, ?_, ?_, ?_⟩
  · rw [← h.initial, ← hids.mem_iff]
    exact hs.initial
  · intro q hq
    exact hids.mem_iff.1 (hs.finals q ((h.finals q).2 hq))
  · intro r hr
    rw [← h.rules] at hr
    rw [← hids.mem_iff, ← hids.mem_iff]
    exact hs.endpoints r hr
  · intro r hr
    rw [← h.rules] at hr
    exact (h.alphabet r.symbol).1 (hs.symbols r hr)
  · rw [← h.rules]
    exact hs.distinct
  · rw [← h.rules, ← h.policy]
    exact hs.deterministic

theorem Rearranged.wellFormed_iff {s t : Snapshot α} (h : Rearranged s t) :
    s.WellFormed ↔ t.WellFormed :=
  ⟨h.wellFormed, h.symm.wellFormed⟩

/-- What a well-formed snapshot lists counts, and not the order in which it does. -/
theorem assemble_of_rearranged {s t : Snapshot α} (hs : s.WellFormed) (h : Rearranged s t) :
    s.assemble = t.assemble := by
  have ht := h.wellFormed hs
  have hstates : s.assemble.states = t.assemble.states := by
    apply SortedMap.ext_get?
    intro q
    apply Option.ext
    intro ancestor
    have hmem := h.states.mem_iff (a := ⟨q, ancestor⟩)
    rw [← hs.get?_assemble, ← ht.get?_assemble] at hmem
    exact hmem
  have hinitial : s.initialState = t.initialState := by
    have hlisted : t.initialState ∈ s.states :=
      h.states.mem_iff.2 (mem_initialState ht.initial)
    refine hs.eq_of_id_eq (mem_initialState hs.initial) hlisted ?_
    rw [s.id_initialState, t.id_initialState, h.initial]
  have hfinals : SortedSet.ofList s.finals = SortedSet.ofList t.finals := by
    apply SortedSet.ext_mem
    intro q
    rw [SortedSet.mem_ofList, SortedSet.mem_ofList, h.finals]
  have halphabet : SortedSet.ofList s.alphabet = SortedSet.ofList t.alphabet := by
    apply SortedSet.ext_mem
    intro x
    rw [SortedSet.mem_ofList, SortedSet.mem_ofList, h.alphabet]
  have hmap : SortedMap.ofList (s.states.map fun q => (q.id, q.ancestor)) =
      SortedMap.ofList (t.states.map fun q => (q.id, q.ancestor)) := hstates
  rw [assemble, assemble, Automaton.assemble, Automaton.assemble, h.policy, h.rules, hmap,
    hinitial, hfinals, halphabet]

/-! ## A snapshot of what is restored -/

/-- A snapshot with its states sorted by identity, and its final states and symbols sorted and
without repetitions. -/
def sorted (s : Snapshot α) : Snapshot α :=
  { s with
    states := s.states.mergeSort fun p q => ¬ q.id < p.id
    finals := ascending s.finals
    alphabet := ascending s.alphabet }

theorem WellFormed.stateList_assemble {s : Snapshot α} (h : s.WellFormed) :
    s.assemble.stateList = s.sorted.states := by
  refine Ordered.eq_of_pairwise (R := fun p q : State => p.id < q.id)
    (fun q => Ordered.irrefl q.id) Ordered.trans ?_ ?_ ?_
  · exact List.pairwise_map.2 s.assemble.states.ascending
  · have hnodup : (s.sorted.states.map State.id).Nodup :=
      ((List.mergeSort_perm s.states _).map State.id).nodup_iff.2 h.listing
    have hsorted := Ordered.pairwise_mergeSort (R := fun p q : State => p.id < q.id) Ordered.asymm
      Ordered.not_lt_trans s.states
    refine (List.pairwise_and_iff.2 ⟨hsorted, List.pairwise_map.1 hnodup⟩).imp ?_
    intro p q hpq
    exact (Ordered.not_lt_iff.1 hpq.1).resolve_left (Ne.symm hpq.2)
  · intro q
    rw [h.mem_stateList_assemble, sorted, List.mem_mergeSort]

theorem WellFormed.snapshot_assemble {s : Snapshot α} (h : s.WellFormed)
    (version : s.version = supportedVersion) (id : Uuid) (takenAt : Instant) :
    s.assemble.snapshot id takenAt = { s.sorted with id, takenAt } := by
  have hfinals : s.assemble.finals.toList = ascending s.finals := SortedSet.toList_ofList _
  have halphabet : s.assemble.alphabet.toList = ascending s.alphabet := SortedSet.toList_ofList _
  have hinitial : s.assemble.initial.id = s.initial := s.id_initialState
  rw [Automaton.snapshot, h.stateList_assemble, hfinals, halphabet, hinitial, s.rules_assemble,
    ← version]
  rfl

/-! ## Restoring -/

theorem restore_eq_unsupported_iff {s : Snapshot α} {found : UInt32} :
    s.restore = .error (.unsupportedVersion found) ↔
      found = s.version ∧ s.version ≠ supportedVersion := by
  by_cases hv : s.version = supportedVersion
  · rw [restore, if_neg (not_not_intro hv)]
    split <;> simp [hv]
  · rw [restore, if_pos hv]
    simp [hv, eq_comm]

theorem restore_eq_ok_iff_wellFormed {s : Snapshot α} {a : Automaton α} :
    s.restore = .ok a ↔ s.version = supportedVersion ∧ s.WellFormed ∧ a = s.assemble := by
  rw [restore_eq_ok_iff, violations_eq_nil_iff]

theorem restore_eq_invalid_iff {s : Snapshot α} {vs : List (Violation α)} :
    s.restore = .error (.invalid vs) ↔
      s.version = supportedVersion ∧ ¬ s.WellFormed ∧ vs = s.violations := by
  rw [← violations_eq_nil_iff]
  by_cases hv : s.version = supportedVersion
  · rw [restore, if_neg (not_not_intro hv)]
    cases s.violations <;> simp [hv, eq_comm]
  · rw [restore, if_pos hv]
    simp [hv]

/-- A snapshot is refused for its version or restored, when it is well formed, or refused with what
is wrong with it. What is restored is as the snapshot says; a snapshot that says the same in
another order meets the same answer; and a snapshot of what is restored is the one it came from,
with its listings in order. -/
theorem restored_iff_well_formed (s : Snapshot α) :
    (∀ found, s.restore = .error (.unsupportedVersion found) ↔
      found = s.version ∧ s.version ≠ supportedVersion) ∧
    ((∃ a, s.restore = .ok a) ↔ s.version = supportedVersion ∧ s.WellFormed) ∧
    ((∃ v vs, s.restore = .error (.invalid (v :: vs))) ↔
      s.version = supportedVersion ∧ ¬ s.WellFormed) ∧
    (∀ a, s.restore = .ok a → Describes s a ∧
      ∀ id takenAt, a.snapshot id takenAt = { s.sorted with id, takenAt }) ∧
    (∀ t, Rearranged s t →
      (∀ found, s.restore = .error (.unsupportedVersion found) ↔
        t.restore = .error (.unsupportedVersion found)) ∧
      (∀ a, s.restore = .ok a ↔ t.restore = .ok a) ∧
      ((∃ vs, s.restore = .error (.invalid vs)) ↔ ∃ vs, t.restore = .error (.invalid vs))) := by
  refine ⟨fun _ => restore_eq_unsupported_iff, ?_, ?_, ?_, ?_⟩
  · simp [restore_eq_ok_iff_wellFormed]
  · simp only [restore_eq_invalid_iff]
    refine ⟨fun ⟨_, _, hv, hs, _⟩ => ⟨hv, hs⟩, ?_⟩
    intro ⟨hv, hs⟩
    obtain ⟨v, vs, heq⟩ := List.exists_cons_of_ne_nil (mt violations_eq_nil_iff.1 hs)
    exact ⟨v, vs, hv, hs, heq.symm⟩
  · intro a ha
    obtain ⟨hv, hs, rfl⟩ := restore_eq_ok_iff_wellFormed.1 ha
    exact ⟨hs.describes, hs.snapshot_assemble hv⟩
  · intro t h
    refine ⟨?_, ?_, ?_⟩
    · intro found
      rw [restore_eq_unsupported_iff, restore_eq_unsupported_iff, h.version]
    · intro a
      rw [restore_eq_ok_iff_wellFormed, restore_eq_ok_iff_wellFormed, ← h.version,
        ← h.wellFormed_iff]
      refine and_congr_right fun _ => and_congr_right fun hs => ?_
      rw [assemble_of_rearranged hs h]
    · simp only [restore_eq_invalid_iff, exists_and_left, exists_eq, and_true, h.version,
        h.wellFormed_iff]

/-- A snapshot with its listings out of order and a final state named twice, the same in another
order, and one whose initial state is not listed. -/
theorem restored_of_shuffled_listings :
    let s : Snapshot Char := {
      version := 1
      id := ⟨List.replicate 16 7, rfl⟩
      takenAt := ⟨⟨2024, 2, 29, by decide, by decide, by decide⟩, 0, 0, by decide, by decide, by decide⟩
      policy := .reject
      states := [⟨⟨10⟩, some ⟨9⟩⟩, ⟨⟨0⟩, none⟩, ⟨⟨9⟩, some ⟨0⟩⟩]
      initial := ⟨9⟩
      finals := [⟨10⟩, ⟨0⟩, ⟨10⟩]
      alphabet := ['b', 'a', 'b']
      rules := [⟨⟨⟨9⟩, none⟩, 'b', ⟨⟨10⟩, some ⟨9⟩⟩⟩, ⟨⟨⟨9⟩, some ⟨0⟩⟩, 'a', ⟨⟨10⟩, some ⟨9⟩⟩⟩] }
    let t : Snapshot Char := { s with
      states := [⟨⟨0⟩, none⟩, ⟨⟨9⟩, some ⟨0⟩⟩, ⟨⟨10⟩, some ⟨9⟩⟩]
      finals := [⟨0⟩, ⟨10⟩]
      alphabet := ['a', 'b', 'a'] }
    let u : Snapshot Char := { s with initial := ⟨1⟩ }
    (s.version = supportedVersion ∧ s.WellFormed ∧ ∃ a, s.restore = .ok a ∧ Describes s a) ∧
    (Rearranged s t ∧ ∀ a, s.restore = .ok a ↔ t.restore = .ok a) ∧
    (¬ u.WellFormed ∧ ∃ v vs, u.restore = .error (.invalid (v :: vs))) := by
  intro s t u
  have wellFormed : s.WellFormed := ⟨by decide, by decide, by decide, by decide, by decide,
    by decide, fun _ => by decide⟩
  have rearranged : Rearranged s t := ⟨rfl, rfl, by decide, rfl, by simp [s, t, or_comm],
    by simp [s, t, or_comm], rfl⟩
  have malformed : ¬ u.WellFormed := fun h => absurd h.initial (by decide)
  obtain ⟨_, hok, _, hdescribes, hrearranged⟩ := restored_iff_well_formed s
  obtain ⟨a, ha⟩ := hok.2 ⟨rfl, wellFormed⟩
  exact ⟨⟨rfl, wellFormed, a, ha, (hdescribes a ha).1⟩, ⟨rearranged, (hrearranged t rearranged).2.1⟩,
    malformed, (restored_iff_well_formed u).2.2.1.2 ⟨rfl, malformed⟩⟩

end Snapshot

end Acceptor
