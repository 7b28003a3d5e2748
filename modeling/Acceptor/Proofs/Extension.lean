import Acceptor.PrefixTree
import Acceptor.Proofs.Arrival

/-!
  Acceptor.Proofs.Extension — samples inserted into an automaton that exists

  A builder that goes on with an automaton walks each sample down its rules and grows a new branch
  where they end. Whatever the automaton was, a sample that is inserted can be walked from then on
  and leads to the state that was answered. That state is made final as the last rule on the way
  stores it, though, and not as the state set knows it: where the two disagree the state set
  refuses, and the builder goes on as if it had not.

  Main statements:
    1. `PrefixTree.Lasting.insertEach` — what letters and ends leave true, samples leave true.
    2. `PrefixTree.Growing.descend` and `PrefixTree.Growing.insertEach` — beyond the old automaton,
       words lead to states that are known as they are stored.
    3. `PrefixTree.Growing.isFinal_insert_iff` — when the end of a sample is final.
    4. `PrefixTree.inserted_samples_lead` — all of it, for any samples on any automaton.
-/

namespace Acceptor.PrefixTree

/-- Inserts samples one after another, whatever the answers. -/
def insertEach (t : PrefixTree) (samples : List String) : PrefixTree :=
  samples.foldl (fun t s => (t.insert s).1) t

/-! ## One letter, one sample -/

section

variable {t : PrefixTree} {q : State} {c : Char} {s : String}

/-- What a way down that fails says of the sample. -/
def Error.ofCause (sample : String) : Registry.Error ⊕ Refusal Char → Error
  | .inl cause => .registry cause
  | .inr cause => .rule sample cause

/-- What one letter does: a rule is there; or there is none, and no identity is left, or the new
rule is refused, or it is added. -/
theorem descend_cases {P : PrefixTree × Except (Registry.Error ⊕ Refusal Char) State → Prop}
    (there : ∀ r, t.automaton.ruleFor? q.id c = some r → P (t, .ok r.destination))
    (exhausted : ∀ e, t.registry.derive q = .error e → P (t, .error (.inl e)))
    (refused : ∀ next registry e, t.automaton.ruleFor? q.id c = none →
      t.registry.derive q = .ok (next, registry) → t.automaton.addRule ⟨q, c, next⟩ = .error e →
      P ({ t with registry }, .error (.inr e)))
    (grown : ∀ next registry n automaton, t.automaton.ruleFor? q.id c = none →
      t.registry.derive q = .ok (next, registry) →
      t.automaton.addRule ⟨q, c, next⟩ = .ok (n, automaton) →
      P ({ t with registry, automaton }, .ok next)) :
    P (t.descend q c) := by
  unfold descend
  split
  · next r hr => exact there r hr
  · next hfree =>
    split
    · next e hderive => exact exhausted e hderive
    · next next registry hderive =>
      split
      · next e hadd => exact refused next registry e hfree hderive hadd
      · next n automaton hadd => exact grown next registry n automaton hfree hderive hadd

/-- What one sample does: its way down fails, or its end is asked to be made final. -/
theorem insert_cases {P : PrefixTree × Except Error StateId → Prop}
    (failed : ∀ t' e, t.descendAll t.automaton.initial s.toList = (t', .error e) →
      P (t', .error (.ofCause s e)))
    (ended : ∀ t' q, t.descendAll t.automaton.initial s.toList = (t', .ok q) →
      P ({ t' with
        automaton := t'.automaton.settle (t'.automaton.addFinal q)
        samples := t'.samples + 1 }, .ok q.id)) :
    P (t.insert s) := by
  unfold insert
  split
  · next t' e hdescend => exact failed t' _ hdescend
  · next t' e hdescend => exact failed t' _ hdescend
  · next t' q hdescend =>
    have hended := ended t' q hdescend
    cases hadd : t'.automaton.addFinal q with
    | ok result => rwa [hadd] at hended
    | error e => rwa [hadd] at hended

/-! ## What is there stays -/

theorem extends_descend (t : PrefixTree) (q : State) (c : Char) :
    t.automaton.Extends (t.descend q c).1.automaton := by
  apply descend_cases (P := fun p => t.automaton.Extends p.1.automaton)
  case there => exact fun _ _ => .refl _
  case exhausted => exact fun _ _ => .refl _
  case refused => exact fun _ _ _ _ _ _ => .refl _
  case grown => exact fun _ _ _ _ hfree _ hadd => Automaton.extends_addRule hfree hadd

theorem ruleFor?_descend {e : State} (ok : (t.descend q c).2 = .ok e) :
    ∃ r, (t.descend q c).1.automaton.ruleFor? q.id c = some r ∧ r.destination = e := by
  revert ok
  apply descend_cases (P := fun p => p.2 = .ok e →
    ∃ r, p.1.automaton.ruleFor? q.id c = some r ∧ r.destination = e)
  case there => exact fun r hr ok => ⟨r, hr, Except.ok.inj ok⟩
  case exhausted => exact fun _ _ ok => absurd ok (by simp)
  case refused => exact fun _ _ _ _ _ _ ok => absurd ok (by simp)
  case grown =>
    intro next registry n automaton hfree _ hadd ok
    refine ⟨⟨q, c, next⟩, ?_, Except.ok.inj ok⟩
    rw [Automaton.ruleFor?_addRule hfree hadd, if_pos ⟨rfl, rfl⟩]

theorem finals_descend (t : PrefixTree) (q : State) (c : Char) :
    (t.descend q c).1.automaton.finals = t.automaton.finals := by
  apply descend_cases (P := fun p => p.1.automaton.finals = t.automaton.finals)
  case there => exact fun _ _ => rfl
  case exhausted => exact fun _ _ => rfl
  case refused => exact fun _ _ _ _ _ _ => rfl
  case grown =>
    intro next registry n automaton _ _ hadd
    obtain ⟨_, _, rfl⟩ := Automaton.addRule_eq_ok_iff.1 hadd
    rfl

theorem descendAll_induction {R : PrefixTree → PrefixTree → Prop} (refl : ∀ t, R t t)
    (trans : ∀ {t u v}, R t u → R u v → R t v) (step : ∀ t q c, R t (t.descend q c).1)
    (t : PrefixTree) (q : State) (w : List Char) : R t (t.descendAll q w).1 := by
  induction w generalizing t q with
  | nil => exact refl t
  | cons c rest ih =>
    have hstep := step t q c
    rw [descendAll]
    split
    · next t' next hdescend =>
      rw [hdescend] at hstep
      exact trans hstep (ih t' next)
    · next t' e hdescend =>
      rw [hdescend] at hstep
      exact hstep

theorem extends_descendAll (t : PrefixTree) (q : State) (w : List Char) :
    t.automaton.Extends (t.descendAll q w).1.automaton :=
  descendAll_induction (R := fun t t' => t.automaton.Extends t'.automaton) (fun _ => .refl _)
    Automaton.Extends.trans extends_descend t q w

theorem finals_descendAll (t : PrefixTree) (q : State) (w : List Char) :
    (t.descendAll q w).1.automaton.finals = t.automaton.finals :=
  descendAll_induction (R := fun t t' => t'.automaton.finals = t.automaton.finals) (fun _ => rfl)
    (fun h h' => h'.trans h) finals_descend t q w

theorem extends_insert (t : PrefixTree) (s : String) :
    t.automaton.Extends (t.insert s).1.automaton := by
  have hdescend := extends_descendAll t t.automaton.initial s.toList
  apply insert_cases (P := fun p => t.automaton.Extends p.1.automaton)
  case failed =>
    intro t' e hresult
    rw [hresult] at hdescend
    exact hdescend
  case ended =>
    intro t' q hresult
    rw [hresult] at hdescend
    exact hdescend.trans (Automaton.extends_settle_addFinal _ q)

theorem extends_insertEach (t : PrefixTree) (samples : List String) :
    t.automaton.Extends (t.insertEach samples).automaton := by
  induction samples generalizing t with
  | nil => exact .refl _
  | cons s rest ih => exact (extends_insert t s).trans (ih (t.insert s).1)

/-! ## Where samples lead -/

theorem arrives?_descendAll {e : State} {w : List Char} (ok : (t.descendAll q w).2 = .ok e) :
    (t.descendAll q w).1.automaton.arrives? q w = some e := by
  induction w generalizing t q with
  | nil => exact congrArg some (Except.ok.inj ok)
  | cons c rest ih =>
    rw [descendAll] at ok ⊢
    split at ok
    · next t' next hdescend =>
      obtain ⟨r, hr, rfl⟩ := ruleFor?_descend (congrArg Prod.snd hdescend)
      rw [hdescend] at hr
      -- the rule that the letter took stays while the other letters go on
      have hkept := (extends_descendAll t' r.destination rest).lookups _ _ _ hr
      exact Automaton.arrives?_cons_iff.2 ⟨r, hkept, ih ok⟩
    · exact absurd ok (by simp)

theorem descendAll_of_arrives? {e : State} {w : List Char}
    (h : t.automaton.arrives? q w = some e) : t.descendAll q w = (t, .ok e) := by
  induction w generalizing q with
  | nil => rw [descendAll, Option.some.inj h]
  | cons c rest ih =>
    obtain ⟨r, hr, hrest⟩ := Automaton.arrives?_cons_iff.1 h
    have hstep : t.descend q c = (t, .ok r.destination) := by rw [descend, hr]
    rw [descendAll, hstep]
    exact ih hrest

theorem insert_of_arrives? {e : State}
    (h : t.automaton.arrives? t.automaton.initial s.toList = some e) :
    (t.insert s).2 = .ok e.id := by
  rw [insert, descendAll_of_arrives? h]

end

/-! ## What lasts -/

theorem wellFormed_descend {t : PrefixTree} (h : t.automaton.WellFormed) (q : State) (c : Char) :
    (t.descend q c).1.automaton.WellFormed := by
  apply descend_cases (P := fun p => p.1.automaton.WellFormed)
  case there => exact fun _ _ => h
  case exhausted => exact fun _ _ => h
  case refused => exact fun _ _ _ _ _ _ => h
  case grown => exact fun _ _ _ _ _ _ hadd => h.addRule hadd

theorem wellFormed_descendAll {t : PrefixTree} (h : t.automaton.WellFormed) (q : State)
    (w : List Char) : (t.descendAll q w).1.automaton.WellFormed :=
  descendAll_induction (R := fun t t' => t.automaton.WellFormed → t'.automaton.WellFormed)
    (fun _ h => h) (fun h h' => h' ∘ h) (fun _ q c h => wellFormed_descend h q c) t q w h

theorem containsState_descendAll {t : PrefixTree} (h : t.automaton.WellFormed) {q e : State}
    (hq : t.automaton.containsState q.id) {w : List Char} (ok : (t.descendAll q w).2 = .ok e) :
    (t.descendAll q w).1.automaton.containsState e.id := by
  have hkept := (extends_descendAll t q w).containsState hq
  exact (wellFormed_descendAll h q w).containsState_arrives? hkept (arrives?_descendAll ok)

/-- Whether what is true of a tree outlasts what a sample does to it: a letter from a state of the
state set, and asking for such a state to be final. -/
structure Lasting (I : PrefixTree → Prop) : Prop where
  descend : ∀ {t q}, I t → t.automaton.containsState q.id → ∀ c, I (t.descend q c).1
  mark : ∀ {t q}, I t → t.automaton.containsState q.id → ∀ n, I { t with
    automaton := t.automaton.settle (t.automaton.addFinal q)
    samples := n }

namespace Lasting

variable {I : PrefixTree → Prop} {t : PrefixTree}

theorem descendAll (lasting : Lasting I) (wellFormed : t.automaton.WellFormed) (h : I t) {q : State}
    (hq : t.automaton.containsState q.id) (w : List Char) : I (t.descendAll q w).1 := by
  induction w generalizing t q with
  | nil => exact h
  | cons c rest ih =>
    have hstep := lasting.descend h hq c
    have hwell := wellFormed_descend wellFormed q c
    rw [PrefixTree.descendAll]
    split
    · next t' next hdescend =>
      obtain ⟨r, hr, rfl⟩ := ruleFor?_descend (congrArg Prod.snd hdescend)
      rw [hdescend] at hstep hwell hr
      exact ih hwell hstep (hwell.endpoints r (Rulebook.mem_of_first? hr).1).2
    · next t' e hdescend =>
      rw [hdescend] at hstep
      exact hstep

theorem insert (lasting : Lasting I) (wellFormed : t.automaton.WellFormed) (h : I t) (s : String) :
    I (t.insert s).1 := by
  have hinitial := wellFormed.containsState_initial
  have hdescend := lasting.descendAll wellFormed h hinitial s.toList
  apply insert_cases (P := fun p => I p.1)
  case failed =>
    intro t' e hresult
    rw [hresult] at hdescend
    exact hdescend
  case ended =>
    intro t' q hresult
    have hq := containsState_descendAll wellFormed hinitial (congrArg Prod.snd hresult)
    rw [hresult] at hdescend hq
    exact lasting.mark hdescend hq _

theorem wellFormed : Lasting fun t => t.automaton.WellFormed where
  descend h _ c := wellFormed_descend h _ c
  mark h _ _ := Automaton.settle_induction h fun _ _ hadd => h.addFinal hadd

theorem insertEach (lasting : Lasting I) (wellFormed : t.automaton.WellFormed) (h : I t)
    (samples : List String) : I (t.insertEach samples) := by
  induction samples generalizing t with
  | nil => exact h
  | cons s rest ih =>
    exact ih (Lasting.wellFormed.insert wellFormed wellFormed s) (lasting.insert wellFormed h s)

end Lasting

/-! ## Growth on an automaton -/

/-- A tree grown on an automaton. -/
structure Growing (a : Automaton Char) (t : PrefixTree) : Prop where
  wellFormed : t.automaton.WellFormed
  kept : a.Extends t.automaton
  /-- The identities to come are new. -/
  ahead : ∀ q, t.automaton.containsState q → q.toNat < t.registry.issued
  /-- Where a word leads beyond the automaton, the state is known as it is stored. -/
  beyond : ∀ w e, t.automaton.arrives? t.automaton.initial w = some e →
    a.arrives? a.initial w = some e ∨ t.automaton.Knows e

theorem toNat_le_lastId {a : Automaton Char} {q : StateId} (h : a.containsState q) :
    q.toNat ≤ (lastId a).toNat := by
  have hq : q ∈ a.states.keys := SortedMap.mem_keys_iff.2 h
  have hascending := a.states.ascending_keys
  rw [lastId]
  cases hlast : a.states.keys.getLast? with
  | none =>
    rw [List.getLast?_eq_none_iff.1 hlast] at hq
    exact absurd hq List.not_mem_nil
  | some last =>
    obtain ⟨before, hkeys⟩ := List.getLast?_eq_some_iff.1 hlast
    rw [hkeys] at hq hascending
    rcases List.mem_append.1 hq with hq | hq
    · have hlt := (List.pairwise_append.1 hascending).2.2 q hq last (List.mem_singleton.2 rfl)
      exact Nat.le_of_lt (StateId.lt_iff_toNat_lt.1 hlt)
    · exact Nat.le_of_eq (by rw [List.mem_singleton.1 hq, Option.getD_some])

theorem extend_eq_ok {a : Automaton Char} {t : PrefixTree} (h : extend a = .ok t) :
    t.automaton = a ∧ t.registry.issued = (lastId a).toNat + 1 := by
  rw [extend] at h
  cases hresume : Registry.resumeAfter (lastId a) with
  | error e =>
    rw [hresume] at h
    exact absurd h (by simp [bind, Except.bind])
  | ok registry =>
    rw [hresume] at h
    rw [← Except.ok.inj h]
    exact ⟨rfl, (Registry.resumeAfter_eq_ok_iff.1 hresume).2⟩

theorem exists_extend {a : Automaton Char} (room : (lastId a).toNat + 1 < UInt64.size) :
    ∃ t, extend a = .ok t := by
  have hresume : Registry.resumeAfter (lastId a) = .ok ⟨.ofNat ((lastId a).toNat + 1)⟩ :=
    Registry.resumeAfter_eq_ok_iff.2 ⟨room, UInt64.toNat_ofNat_of_lt' room⟩
  rw [extend, hresume]
  exact ⟨_, rfl⟩

namespace Growing

variable {a : Automaton Char} {t : PrefixTree}

theorem start (h : a.WellFormed) (extended : extend a = .ok t) : Growing a t := by
  obtain ⟨rfl, hissued⟩ := extend_eq_ok extended
  refine ⟨h, .refl _, ?_, fun _ _ hw => .inl hw⟩
  intro q hq
  rw [hissued]
  exact Nat.lt_succ_of_le (toNat_le_lastId hq)

theorem new_of_derive (h : Growing a t) {q next : State} {registry : Registry}
    (hderive : t.registry.derive q = .ok (next, registry)) :
    ¬ t.automaton.containsState next.id := by
  obtain ⟨_, hid, _⟩ := Registry.allocate_eq_ok_iff.1 hderive
  intro hmem
  exact Nat.lt_irrefl _ (hid ▸ h.ahead next.id hmem)

theorem descend (h : Growing a t) {q : State} (hq : t.automaton.containsState q.id) (c : Char) :
    Growing a (t.descend q c).1 := by
  apply descend_cases (P := fun p => Growing a p.1)
  case there => exact fun _ _ => h
  case exhausted => exact fun _ _ => h
  case refused =>
    intro next registry e _ hderive _
    obtain ⟨_, _, _, hissued⟩ := Registry.allocate_eq_ok_iff.1 hderive
    refine ⟨h.wellFormed, h.kept, ?_, h.beyond⟩
    intro p hp
    rw [hissued]
    exact Nat.lt_succ_of_lt (h.ahead p hp)
  case grown =>
    intro next registry n automaton hfree hderive hadd
    obtain ⟨_, hid, _, hissued⟩ := Registry.allocate_eq_ok_iff.1 hderive
    have hnew := h.new_of_derive hderive
    have hextends := Automaton.extends_addRule hfree hadd
    have hknows : automaton.Knows next := by
      apply (Automaton.knows_of_addRule hadd).2
      rintro (heq : q.id = next.id)
      exact hnew (heq ▸ hq)
    refine ⟨h.wellFormed.addRule hadd, h.kept.trans hextends, ?_, ?_⟩
    · intro p hp
      obtain ⟨_, _, rfl⟩ := Automaton.addRule_eq_ok_iff.1 hadd
      rw [hissued]
      rcases Automaton.contains_learn.1 hp with rfl | hp
      · exact Nat.lt_succ_of_le (Nat.le_of_eq hid)
      · rcases Automaton.contains_learn.1 hp with rfl | hp
        · exact Nat.lt_succ_of_lt (h.ahead _ hq)
        · exact Nat.lt_succ_of_lt (h.ahead p hp)
    · intro w e hw
      have hinitial : automaton.initial = t.automaton.initial := hextends.initial
      rw [hinitial] at hw
      rcases Automaton.arrives?_addRule h.wellFormed hfree hq hnew hadd hw with hw | ⟨rfl, _⟩
      · exact (h.beyond w e hw).imp_right (hextends.knows e)
      · exact .inr hknows

theorem mark (h : Growing a t) {q : State} (hq : t.automaton.containsState q.id) (n : Nat) :
    Growing a { t with
      automaton := t.automaton.settle (t.automaton.addFinal q)
      samples := n } := by
  apply Automaton.settle_induction
    (P := fun automaton => Growing a { t with automaton, samples := n })
  · exact ⟨h.wellFormed, h.kept, h.ahead, h.beyond⟩
  · intro new automaton hadd
    have hextends := Automaton.extends_addFinal hadd
    refine ⟨h.wellFormed.addFinal hadd, h.kept.trans hextends, ?_, ?_⟩
    · intro p hp
      obtain ⟨_, _, rfl⟩ := Automaton.addFinal_eq_ok_iff.1 hadd
      rcases Automaton.contains_learn.1 hp with rfl | hp
      · exact h.ahead _ hq
      · exact h.ahead p hp
    · intro w e hw
      rw [Automaton.arrives?_addFinal hadd] at hw
      exact (h.beyond w e hw).imp_right (hextends.knows e)

theorem lasting (a : Automaton Char) : Lasting (Growing a) where
  descend h := h.descend
  mark h := h.mark

theorem insertEach (h : Growing a t) (samples : List String) : Growing a (t.insertEach samples) :=
  (lasting a).insertEach h.wellFormed h samples

/-- The end of a sample that is inserted is final when it was before, or when the state set knows it
as the last rule on the way stores it. -/
theorem isFinal_insert_iff (h : Growing a t) {s : String} {id : StateId}
    (ok : (t.insert s).2 = .ok id) :
    ∃ e, (t.insert s).1.automaton.arrives? t.automaton.initial s.toList = some e ∧ e.id = id ∧
      ((t.insert s).1.automaton.isFinal id ↔
        t.automaton.isFinal id ∨ (t.insert s).1.automaton.Knows e) := by
  revert ok
  apply insert_cases (P := fun p => p.2 = .ok id → ∃ e,
    p.1.automaton.arrives? t.automaton.initial s.toList = some e ∧ e.id = id ∧
      (p.1.automaton.isFinal id ↔ t.automaton.isFinal id ∨ p.1.automaton.Knows e))
  case failed => exact fun _ _ _ ok => absurd ok (by simp)
  case ended =>
    intro t' q hresult ok
    obtain rfl : q.id = id := Except.ok.inj ok
    have hq := containsState_descendAll h.wellFormed h.wellFormed.containsState_initial
      (congrArg Prod.snd hresult)
    have harrives := arrives?_descendAll (congrArg Prod.snd hresult)
    have hfinals := finals_descendAll t t.automaton.initial s.toList
    rw [hresult] at hq harrives hfinals
    have hextends := Automaton.extends_settle_addFinal t'.automaton q
    have hbefore : t'.automaton.isFinal q.id = t.automaton.isFinal q.id := by
      rw [Automaton.isFinal, Automaton.isFinal, hfinals]
    refine ⟨q, hextends.arrives? harrives, rfl, ?_⟩
    show (t'.automaton.settle (t'.automaton.addFinal q)).isFinal q.id ↔
      _ ∨ (t'.automaton.settle (t'.automaton.addFinal q)).Knows q
    rw [Automaton.isFinal_settle_addFinal_iff hq, hextends.knows_iff hq, hbefore]

theorem leadsTo_insertEach (h : Growing a t) {s : String} {id : StateId}
    (ok : (t.insert s).2 = .ok id) (after : List String) :
    ((t.insert s).1.insertEach after).automaton.LeadsTo s.toList id := by
  obtain ⟨e, harrives, rfl, _⟩ := h.isFinal_insert_iff ok
  have hgrown := h.insertEach (s :: after)
  have hextends := (extends_insert t s).trans (extends_insertEach (t.insert s).1 after)
  have hlater := (extends_insertEach (t.insert s).1 after).arrives? harrives
  rw [← hextends.initial] at hlater
  exact Automaton.leadsTo_of_arrives? hgrown.wellFormed.symbols hlater

/-- On an automaton of which the words lead to states that are known or final, the end of a sample
that is inserted is final. -/
theorem isFinal_insert_of_settled (h : Growing a t) (settled : a.Settled) {s : String}
    {id : StateId} (ok : (t.insert s).2 = .ok id) : (t.insert s).1.automaton.isFinal id := by
  obtain ⟨e, harrives, rfl, hiff⟩ := h.isFinal_insert_iff ok
  rw [hiff]
  rw [← (extends_insert t s).initial] at harrives
  have hgrown := h.insertEach [s]
  rcases hgrown.beyond s.toList e harrives with hold | hknows
  · rcases settled s.toList e hold with hknows | hfinal
    · exact .inr (hgrown.kept.knows e hknows)
    · exact .inl (h.kept.finals e.id hfinal)
  · exact .inr hknows

end Growing

/-- Where a word leads to a state that is neither known as it is stored nor final, the word is
inserted and its end is not final. -/
theorem settled_of_isFinal_insert {t : PrefixTree} (wellFormed : t.automaton.WellFormed)
    (grown : Growing t.automaton t)
    (h : ∀ s id, (t.insert s).2 = .ok id → (t.insert s).1.automaton.isFinal id) :
    t.automaton.Settled := by
  intro w e hw
  rw [← String.toList_ofList (l := w)] at hw
  have ok := insert_of_arrives? hw
  obtain ⟨e', harrives, _, hiff⟩ := grown.isFinal_insert_iff ok
  have hextends := extends_insert t (String.ofList w)
  obtain rfl : e' = e := Option.some.inj (harrives.symm.trans (hextends.arrives? hw))
  have hin := wellFormed.containsState_arrives? wellFormed.containsState_initial hw
  rw [← hextends.knows_iff hin, or_comm]
  exact hiff.1 (h _ _ ok)

theorem insertEach_append_cons (t : PrefixTree) (before : List String) (s : String)
    (after : List String) :
    t.insertEach (before ++ s :: after) = ((t.insertEach before).insert s).1.insertEach after := by
  rw [insertEach, List.foldl_append]
  rfl

/-- On any automaton and under any policy, a sample that is inserted leads to the state that was
answered, then and after every later insertion, and that state stays final once it is. It is final
then, when it was before or when the state set knows it as the last rule on the way stores it. So
every sample that is inserted is accepted, exactly where the words of the automaton lead to states
that are known as they are stored, or final; and that is so where the rules store what is known. -/
theorem inserted_samples_lead {a : Automaton Char} (reachable : a.Reachable) {t : PrefixTree}
    (extended : extend a = .ok t) :
    (∀ before s after id, ((t.insertEach before).insert s).2 = .ok id →
      (t.insertEach (before ++ s :: after)).automaton.LeadsTo s.toList id ∧
      (((t.insertEach before).insert s).1.automaton.isFinal id →
        (t.insertEach (before ++ s :: after)).automaton.isFinal id)) ∧
    (∀ before s id, ((t.insertEach before).insert s).2 = .ok id →
      ∃ e, ((t.insertEach before).insert s).1.automaton.arrives? a.initial s.toList = some e ∧
        e.id = id ∧ (((t.insertEach before).insert s).1.automaton.isFinal id ↔
          (t.insertEach before).automaton.isFinal id ∨
            ((t.insertEach before).insert s).1.automaton.Knows e)) ∧
    ((∀ before s after id, ((t.insertEach before).insert s).2 = .ok id →
      (t.insertEach (before ++ s :: after)).automaton.isFinal id ∧
        ((t.insertEach (before ++ s :: after)).automaton.recognize s.toList).1) ↔ a.Settled) ∧
    (a.Unaliased → a.Settled) := by
  have hwell := reachable.wellFormed
  have hstart := Growing.start hwell extended
  have hgrown (before : List String) := hstart.insertEach before
  refine ⟨?_, ?_, ?_, fun hunaliased => hunaliased.settled hwell.initial⟩
  · intro before s after id ok
    rw [insertEach_append_cons]
    exact ⟨(hgrown before).leadsTo_insertEach ok after, (extends_insertEach _ after).finals id⟩
  · intro before s id ok
    rw [← (hgrown before).kept.initial]
    exact (hgrown before).isFinal_insert_iff ok
  · refine ⟨?_, ?_⟩
    · intro h
      obtain ⟨rfl, _⟩ := extend_eq_ok extended
      exact settled_of_isFinal_insert hwell hstart fun s id ok => (h [] s [] id ok).1
    · intro settled before s after id ok
      rw [insertEach_append_cons]
      have hfinal := (extends_insertEach _ after).finals id
        ((hgrown before).isFinal_insert_of_settled settled ok)
      exact ⟨hfinal, ((hgrown before).leadsTo_insertEach ok after).recognized.2 hfinal⟩

/-- A loop that stores its state with another ancestor than the state set has: a sample that ends
there is inserted, and is not accepted. -/
theorem inserted_not_accepted :
    let a : Automaton Char := (Automaton.ofInitial ⟨⟨0⟩, none⟩).runAll [
      .addRule ⟨⟨⟨1⟩, none⟩, 'a', ⟨⟨1⟩, some ⟨0⟩⟩⟩, .addRule ⟨⟨⟨0⟩, none⟩, 'b', ⟨⟨1⟩, none⟩⟩]
    a.Reachable ∧ ∃ t, extend a = .ok t ∧ (t.insert "ba").2 = .ok ⟨1⟩ ∧
      (t.insert "ba").1.automaton.isFinal ⟨1⟩ = false ∧
      ((t.insert "ba").1.automaton.recognize "ba".toList).1 = false := by
  intro a
  exact ⟨⟨_, _, .fresh (.ofInitial _), rfl⟩, _, rfl, rfl, rfl, rfl⟩

/-- The same automaton, on which samples lead on but are not all accepted, and one without a loop of
that kind, on which they are. -/
theorem inserted_samples_lead_on_two :
    let r : Rule Char := ⟨⟨⟨0⟩, none⟩, 'b', ⟨⟨1⟩, none⟩⟩
    let a : Automaton Char := (Automaton.ofInitial ⟨⟨0⟩, none⟩).runAll [
      .addRule ⟨⟨⟨1⟩, none⟩, 'a', ⟨⟨1⟩, some ⟨0⟩⟩⟩, .addRule r]
    let b : Automaton Char := (Automaton.ofInitial ⟨⟨0⟩, none⟩).runAll [.addRule r]
    (a.Reachable ∧ ¬ a.Settled ∧ ∃ t, extend a = .ok t ∧ (t.insert "ba").2 = .ok ⟨1⟩ ∧
      (t.insertEach ["ba", "bb"]).automaton.LeadsTo "ba".toList ⟨1⟩) ∧
    (b.Reachable ∧ b.Settled ∧ ∃ t, extend b = .ok t ∧ (t.insert "ba").2 = .ok ⟨2⟩ ∧
      (t.insertEach ["ba", "bb"]).automaton.isFinal ⟨2⟩ ∧
      ((t.insertEach ["ba", "bb"]).automaton.recognize "ba".toList).1) := by
  intro r a b
  have ha : a.Reachable := ⟨_, _, .fresh (.ofInitial _), rfl⟩
  have hb : b.Reachable := ⟨_, _, .fresh (.ofInitial _), rfl⟩
  obtain ⟨hlead, _⟩ := inserted_samples_lead ha (t := ⟨⟨2⟩, a, 0⟩) rfl
  obtain ⟨_, _, hall, hsettled⟩ := inserted_samples_lead hb (t := ⟨⟨2⟩, b, 0⟩) rfl
  have unsettled : ¬ a.Settled := by
    intro h
    exact absurd (h ['b', 'a'] ⟨⟨1⟩, some ⟨0⟩⟩ rfl) (by decide)
  have settled : b.Settled := by
    apply hsettled
    unfold Automaton.Unaliased
    decide
  exact ⟨⟨ha, unsettled, _, rfl, rfl, (hlead [] "ba" ["bb"] ⟨1⟩ rfl).1⟩,
    hb, settled, _, rfl, rfl, hall.2 settled [] "ba" ["bb"] ⟨2⟩ rfl⟩

end Acceptor.PrefixTree
