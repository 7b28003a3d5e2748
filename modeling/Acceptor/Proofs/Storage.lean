import Acceptor.Proofs.Json.Records
import Acceptor.Proofs.Restore
import Acceptor.Proofs.Walk
import Acceptor.Snapshot.Storage

/-!
  Acceptor.Proofs.Storage — automata that are put away and taken out again

  A snapshot lists an automaton without its cursor and without the index of its rules. What is
  restored is built anew from the listings, and still is the automaton that the snapshot was
  taken of, but for the cursor: the index depends on the rules alone, and the listings of a well
  formed automaton leave no choice. The check on the way finds what it finds in the automaton
  itself. On its way a snapshot may be kept as a text or as bytes.

  Main statements:
    1. `Snapshot.carry_eq_some` — a snapshot comes back from where it was kept.
    2. `Automaton.WellFormed.assemble_snapshot` — a snapshot is assembled to its automaton.
    3. `Automaton.restored_from_snapshot` — an automaton is restored exactly when the check finds
       nothing wrong with it.
-/

namespace Acceptor

/-! ## Snapshots as texts -/

namespace Json

instance : ExactForm Policy := ⟨fun _ => trivial⟩

theorem exact_encodeSettings (policy : Policy) : (encodeSettings policy).Exact := by
  apply exact_recordValue
  simp [ExactForm.exact]

instance : ExactForm Uuid := ⟨fun _ => trivial⟩

instance : ExactForm Instant := ⟨fun _ => trivial⟩

instance {α : Type} [Form α] [ExactForm α] : ExactForm (Snapshot α) where
  exact s := by
    apply exact_recordValue
    simp [ExactForm.exact, exact_encodeSettings]

end Json

namespace Snapshot

variable {α : Type} [Json.Form α]

theorem ofJson?_toJson [Json.ExactForm α] (s : Snapshot α) : ofJson? s.toJson = some s :=
  Json.Form.ofText?_text_of_exact Json.Layout.blank_pretty s

/-- How a snapshot is kept. -/
inductive Carrier where
  /-- As it is. -/
  | value
  | json
  | binary

variable [Binary.Form α]

/-- The snapshot that comes back from where one was kept. -/
def carry (s : Snapshot α) : Carrier → Option (Snapshot α)
  | .value => some s
  | .json => ofJson? s.toJson
  | .binary => ofBinary? s.toBinary

theorem carry_eq_some [Json.ExactForm α] {s : Snapshot α} {carrier : Carrier}
    (fits : carrier = .binary → Binary.Form.Fits s) : s.carry carrier = some s := by
  cases carrier with
  | value => rfl
  | json => exact ofJson?_toJson s
  | binary =>
    have hback := ofBinary?_toBinary (fits rfl) []
    rw [List.append_nil] at hback
    exact hback

end Snapshot

/-! ## Automata from their own snapshots -/

namespace Automaton

variable {α : Type} [Letter α]

theorem WellFormed.checkInvariants_restart {a : Automaton α} (h : a.WellFormed) :
    a.restart.checkInvariants = a.checkInvariants := by
  rw [h.restart.checkInvariants_eq, h.checkInvariants_eq]
  rfl

theorem WellFormed.initialState_snapshot {a : Automaton α} (h : a.WellFormed) (id : Uuid)
    (takenAt : Instant) : (a.snapshot id takenAt).initialState = a.initial := by
  have hlisted : a.initial ∈ (a.snapshot id takenAt).states := mem_stateList_iff.2 h.initial
  have hid : a.initial.id ∈ (a.snapshot id takenAt).ids := List.mem_map.2 ⟨_, hlisted, rfl⟩
  exact List.inj_on_of_nodup_map (a.nodup_snapshot_states id takenAt)
    (Snapshot.mem_initialState hid) hlisted (Snapshot.id_initialState _)

theorem WellFormed.assemble_snapshot {a : Automaton α} (h : a.WellFormed) (id : Uuid)
    (takenAt : Instant) : (a.snapshot id takenAt).assemble = a.restart := by
  have hstates : SortedMap.ofList (a.stateList.map fun q => (q.id, q.ancestor)) = a.states := by
    have hpairs : a.stateList.map (fun q => (q.id, q.ancestor)) = a.states.entries := by
      rw [stateList, List.map_map]
      exact List.map_id _
    rw [hpairs, SortedMap.ofList_entries]
  have hbook : Rulebook.ofList a.rules = a.book := Rulebook.ext_rules (Rulebook.rules_ofList _)
  rw [Snapshot.assemble, h.initialState_snapshot]
  show assemble a.policy a.stateList a.initial a.finals.toList a.alphabet.toList a.rules = _
  rw [assemble, hstates, hbook, SortedSet.ofList_toList, SortedSet.ofList_toList]
  rfl

/-- In a snapshot is wrong what is wrong with the automaton it was taken of. -/
theorem WellFormed.violations_snapshot {a : Automaton α} (h : a.WellFormed) (id : Uuid)
    (takenAt : Instant) : (a.snapshot id takenAt).violations = a.checkInvariants := by
  have honce : duplicateStates (α := α) [] (a.snapshot id takenAt).states = [] :=
    duplicateStates_eq_nil_iff.2 ⟨a.nodup_snapshot_states id takenAt, by simp⟩
  rw [Snapshot.violations, honce, List.nil_append, h.assemble_snapshot, h.checkInvariants_restart]

/-- Whether an automaton has all that another has, with the cursor at the initial state. -/
structure Recovers (a b : Automaton α) : Prop where
  policy : b.policy = a.policy
  initial : b.initial = a.initial
  /-- The states have their ancestors. -/
  states : b.stateList = a.stateList
  finals : b.finals = a.finals
  alphabet : b.alphabet = a.alphabet
  /-- The rules come in the same order, with the ancestors that they name. -/
  rules : b.rules = a.rules
  transitions : ∀ q, b.transitionsFrom q = a.transitionsFrom q
  recognizes : ∀ p, b.recognize p = a.recognize p
  traces : ∀ p, b.trace p = a.trace p
  cursor : b.current = b.initial.id
  snapshot : ∀ id takenAt, b.snapshot id takenAt = a.snapshot id takenAt

theorem recovers_restart (a : Automaton α) : Recovers a a.restart :=
  ⟨rfl, rfl, rfl, rfl, rfl, rfl, fun _ => rfl, fun _ => rfl, fun _ => rfl, rfl, fun _ _ => rfl⟩

theorem WellFormed.restore_snapshot {a : Automaton α} (h : a.WellFormed) (id : Uuid)
    (takenAt : Instant) : (a.snapshot id takenAt).restore =
      if a.checkInvariants = [] then .ok a.restart else .error (.invalid a.checkInvariants) := by
  have hversion : (a.snapshot id takenAt).version = Snapshot.supportedVersion := rfl
  rw [Snapshot.restore, if_neg (not_not_intro hversion), h.violations_snapshot,
    h.assemble_snapshot]
  cases hcheck : a.checkInvariants with
  | nil => rfl
  | cons v vs => rw [if_neg (List.cons_ne_nil v vs)]

/-- A snapshot of an automaton comes back from wherever it was kept. It is restored exactly when
the check finds nothing wrong with the automaton, and then to the same automaton with its cursor at
the initial state; otherwise it is refused with what the check finds. Of bytes it is asked that
their counts fit. -/
theorem restored_from_snapshot [Json.Form α] [Json.ExactForm α] [Binary.Form α] {a : Automaton α}
    (reachable : Reachable a) (carrier : Snapshot.Carrier) (id : Uuid) (takenAt : Instant)
    (fits : carrier = .binary → Binary.Form.Fits (a.snapshot id takenAt)) :
    ∃ s, (a.snapshot id takenAt).carry carrier = some s ∧
      ((∃ b, s.restore = .ok b) ↔ a.checkInvariants = []) ∧
      (∀ b, s.restore = .ok b → b = a.withCursor a.initial.id ∧ Recovers a b) ∧
      (a.checkInvariants ≠ [] → s.restore = .error (.invalid a.checkInvariants)) := by
  refine ⟨_, Snapshot.carry_eq_some fits, ?_⟩
  rw [reachable.wellFormed.restore_snapshot]
  by_cases hcheck : a.checkInvariants = []
  · rw [if_pos hcheck]
    refine ⟨⟨fun _ => hcheck, fun _ => ⟨_, rfl⟩⟩, ?_, fun hne => absurd hcheck hne⟩
    intro b hb
    rw [← Except.ok.inj hb]
    exact ⟨rfl, recovers_restart a⟩
  · rw [if_neg hcheck]
    refine ⟨⟨?_, fun hnil => absurd hnil hcheck⟩, ?_, fun _ => rfl⟩
    · intro ⟨b, hb⟩
      exact absurd hb (by simp)
    · intro b hb
      exact absurd hb (by simp)

/-- An automaton with two rules on one symbol and its cursor moved comes back from a text and from
bytes; once its policy refuses the two rules, its snapshot is refused. -/
theorem restored_from_snapshot_of_moved_cursor :
    let a : Automaton Char := (ofInitial ⟨⟨0⟩, none⟩).runAll [.withPolicy .allow,
      .addRule ⟨⟨⟨0⟩, none⟩, 'b', ⟨⟨10⟩, some ⟨0⟩⟩⟩, .addRule ⟨⟨⟨0⟩, none⟩, 'b', ⟨⟨9⟩, none⟩⟩,
      .addFinal ⟨⟨10⟩, some ⟨0⟩⟩, .step 'b']
    let b : Automaton Char := a.withPolicy .reject
    let id : Uuid := ⟨List.replicate 16 7, rfl⟩
    let takenAt : Instant :=
      ⟨⟨2024, 2, 29, by decide, by decide, by decide⟩, 0, 0, by decide, by decide, by decide⟩
    (Reachable a ∧ Binary.Form.Fits (a.snapshot id takenAt) ∧ a.checkInvariants = [] ∧
      ∀ carrier, ∃ s, (a.snapshot id takenAt).carry carrier = some s ∧
        ∃ c, s.restore = .ok c ∧ c = a.withCursor ⟨0⟩ ∧ Recovers a c) ∧
    (Reachable b ∧ Binary.Form.Fits (b.snapshot id takenAt) ∧
      ∀ carrier, ∃ s, (b.snapshot id takenAt).carry carrier = some s ∧
        s.restore = .error (.invalid [.nondeterministic ⟨0⟩ 'b' 2])) := by
  intro a b id takenAt
  have ha : Reachable a := ⟨_, _, .fresh (.ofInitial _), rfl⟩
  have hb : Reachable b :=
    ⟨.ofInitial ⟨⟨0⟩, none⟩, [.withPolicy .allow, .addRule ⟨⟨⟨0⟩, none⟩, 'b', ⟨⟨10⟩, some ⟨0⟩⟩⟩,
      .addRule ⟨⟨⟨0⟩, none⟩, 'b', ⟨⟨9⟩, none⟩⟩, .addFinal ⟨⟨10⟩, some ⟨0⟩⟩, .step 'b',
      .withPolicy .reject], .fresh (.ofInitial _), rfl⟩
  have fits : Binary.Form.Fits (a.snapshot id takenAt) :=
    ⟨⟨by decide, fun _ _ => trivial⟩, ⟨by decide, fun _ _ => trivial⟩,
      ⟨by decide, fun _ _ => trivial⟩, ⟨by decide, fun _ _ => trivial⟩⟩
  have clean : a.checkInvariants = [] := by decide
  have found : b.checkInvariants = [.nondeterministic ⟨0⟩ 'b' 2] := by decide
  refine ⟨⟨ha, fits, clean, ?_⟩, hb, fits, ?_⟩
  · intro carrier
    obtain ⟨s, hcarry, hok, hb, _⟩ := restored_from_snapshot ha carrier id takenAt fun _ => fits
    obtain ⟨c, hc⟩ := hok.2 clean
    exact ⟨s, hcarry, c, hc, hb c hc⟩
  · intro carrier
    obtain ⟨s, hcarry, _, _, hno⟩ := restored_from_snapshot hb carrier id takenAt fun _ => fits
    rw [found] at hno
    exact ⟨s, hcarry, hno (by simp)⟩

end Automaton

end Acceptor
