import Acceptor.Automaton.Basic
import Mathlib.Data.List.Basic

/-!
  Acceptor.Proofs.Index — the index of a rulebook against a scan of its rules

  The index is built rule by rule, each rule put into its slot by the texts that are there. What
  it holds in the end is compared with the rules themselves: read off the rules in one scan.

  Main statements:
    1. `Rulebook.filed_perm` — the slots together hold each rule once, under its own number.
    2. `Rulebook.sorted_candidates` — each slot is in the order of the texts, so a new rule has
       one place in it.
    3. `Rulebook.first?_text_le` — the first rule of a slot has the least text.
    4. `Rulebook.leaving_perm` and `Rulebook.pairwise_leaving` — the rules listed for a state.
    5. `Rulebook.isDeterministic_iff` — the test for determinism.
-/

namespace Acceptor

variable {α : Type} [Letter α]

/-! ## Slots -/

/-- Whether a slot is in the order of its rules' texts. -/
def SlotSorted (slot : List (Candidate α)) : Prop :=
  slot.Pairwise fun c d => ¬ d.rule.text < c.rule.text

/-- Whether a text belongs at a place of a slot: all before is less, and nothing after is. -/
def IsPlace (text : String) (slot : List (Candidate α)) (k : Nat) : Prop :=
  k ≤ slot.length ∧ (∀ d ∈ slot.take k, d.rule.text < text) ∧
    ∀ d ∈ slot.drop k, ¬ d.rule.text < text

namespace Candidate

theorem insert_perm (c : Candidate α) (slot : List (Candidate α)) :
    (c.insert slot).Perm (c :: slot) := by
  induction slot with
  | nil => exact List.Perm.refl _
  | cons d rest ih =>
    rw [insert]
    split
    · exact (ih.cons d).trans (List.Perm.swap c d rest)
    · exact List.Perm.refl _

theorem insert_ne_nil (c : Candidate α) (slot : List (Candidate α)) : c.insert slot ≠ [] := by
  intro h
  have hperm := insert_perm c slot
  rw [h] at hperm
  exact absurd hperm.nil_eq (by simp)

theorem sorted_insert {c : Candidate α} {slot : List (Candidate α)} (h : SlotSorted slot) :
    SlotSorted (c.insert slot) := by
  induction slot with
  | nil => simp [insert, SlotSorted]
  | cons d rest ih =>
    obtain ⟨hd, hrest⟩ := List.pairwise_cons.1 h
    rw [insert]
    split
    · -- the new rule goes after `d`
      next hlt =>
      refine List.pairwise_cons.2 ⟨?_, ih hrest⟩
      intro e he
      rcases mem_insert.1 he with rfl | he
      · exact Ordered.asymm hlt
      · exact hd e he
    · -- the new rule goes before `d`, and so before all that follows
      next hnot =>
      refine List.pairwise_cons.2 ⟨?_, h⟩
      intro e he
      rcases List.mem_cons.1 he with rfl | he
      · exact hnot
      · exact Ordered.not_lt_trans hnot (hd e he)

/-- Where a text belongs in a slot, the new rule is put there. -/
theorem insert_eq_of_isPlace {c : Candidate α} {slot : List (Candidate α)} {k : Nat}
    (h : IsPlace c.rule.text slot k) : c.insert slot = slot.take k ++ c :: slot.drop k := by
  induction slot generalizing k with
  | nil => simp [insert]
  | cons d rest ih =>
    obtain ⟨hk, hbefore, hafter⟩ := h
    cases k with
    | zero =>
      have hd : ¬ d.rule.text < c.rule.text := hafter d (by simp)
      simp [insert, hd]
    | succ k =>
      have hd : d.rule.text < c.rule.text := hbefore d (by simp)
      have hrest : IsPlace c.rule.text rest k := by
        refine ⟨by simpa using hk, ?_, ?_⟩
        · intro e he
          exact hbefore e (by simp [he])
        · intro e he
          exact hafter e (by simpa using he)
      simp [insert, hd, ih hrest]

end Candidate

theorem SlotSorted.exists_place {slot : List (Candidate α)} (h : SlotSorted slot)
    (text : String) : ∃ k, IsPlace text slot k := by
  induction slot with
  | nil => exact ⟨0, by simp [IsPlace]⟩
  | cons d rest ih =>
    obtain ⟨hd, hrest⟩ := List.pairwise_cons.1 h
    by_cases hlt : d.rule.text < text
    · obtain ⟨k, hk, hbefore, hafter⟩ := ih hrest
      refine ⟨k + 1, by simpa using hk, ?_, ?_⟩
      · intro e he
        rcases List.mem_cons.1 (by simpa using he) with rfl | he
        · exact hlt
        · exact hbefore e he
      · intro e he
        exact hafter e (by simpa using he)
    · refine ⟨0, Nat.zero_le _, by simp, ?_⟩
      intro e he
      rcases List.mem_cons.1 (by simpa using he) with rfl | he
      · exact hlt
      · exact Ordered.not_lt_trans hlt (hd e he)

theorem IsPlace.unique {text : String} {slot : List (Candidate α)} {j k : Nat}
    (hj : IsPlace text slot j) (hk : IsPlace text slot k) : j = k := by
  -- a rule between two places would have to be less and not less
  have key {j k : Nat} (hj : IsPlace text slot j) (hk : IsPlace text slot k) : ¬ j < k := by
    intro hlt
    have hlen : j < slot.length := Nat.lt_of_lt_of_le hlt hk.1
    have hless : slot[j].rule.text < text :=
      hk.2.1 _ (List.mem_take_iff_getElem.2 ⟨j, by omega, rfl⟩)
    have hmem : slot[j] ∈ slot.drop j := List.mem_drop_iff_getElem.2 ⟨0, by omega, by simp⟩
    exact hj.2.2 _ hmem hless
  have h₁ := key hj hk
  have h₂ := key hk hj
  omega

/-! ## What is filed -/

/-- The rules with their numbers, counted from `n`. -/
def numbered (n : Nat) (rules : List (Rule α)) : List (Candidate α) :=
  (rules.zipIdx n).map fun p => ⟨p.2, p.1⟩

omit [Letter α] in
theorem map_rule_numbered (n : Nat) (rules : List (Rule α)) :
    (numbered n rules).map Candidate.rule = rules := by
  simp [numbered, Function.comp_def]

omit [Letter α] in
theorem map_number_numbered (n : Nat) (rules : List (Rule α)) :
    (numbered n rules).map Candidate.number = List.range' n rules.length := by
  simp [numbered, Function.comp_def]

namespace RuleIndex

/-- All that an index holds, slot after slot. -/
def filed (index : RuleIndex α) : List (Candidate α) := index.entries.flatMap (·.2)

theorem filed_alter (c : Candidate α) (t : Trigger α)
    (l : List (Trigger α × List (Candidate α))) :
    ((Entries.alter t (fun slot => c.insert (slot.getD [])) l).flatMap (·.2)).Perm
      (c :: l.flatMap (·.2)) := by
  induction l with
  | nil => simpa [Entries.alter] using Candidate.insert_perm c []
  | cons entry rest ih =>
    obtain ⟨t', slot⟩ := entry
    -- a new slot before this one, this slot, or one further on
    rw [Entries.alter]
    split
    · exact (Candidate.insert_perm c []).append_right _
    · split
      · exact (Candidate.insert_perm c slot).append_right _
      · exact (ih.append_left slot).trans List.perm_middle

theorem filed_file (index : RuleIndex α) (c : Candidate α) :
    (index.file c).filed.Perm (c :: index.filed) :=
  filed_alter c c.rule.trigger index.entries

theorem filed_fileAll (index : RuleIndex α) (n : Nat) (rules : List (Rule α)) :
    (index.fileAll n rules).filed.Perm (numbered n rules ++ index.filed) := by
  induction rules generalizing index n with
  | nil => exact List.Perm.refl _
  | cons r rest ih =>
    have hlater := ih (index.file ⟨n, r⟩) (n + 1)
    have hfirst := (filed_file index ⟨n, r⟩).append_left (numbered (n + 1) rest)
    exact (hlater.trans hfirst).trans List.perm_middle

theorem sorted_slot_fileAll {index : RuleIndex α} (h : ∀ t, SlotSorted (index.slot t)) (n : Nat)
    (rules : List (Rule α)) (t : Trigger α) : SlotSorted ((index.fileAll n rules).slot t) := by
  induction rules generalizing index n with
  | nil => exact h t
  | cons r rest ih =>
    apply ih
    intro t'
    rw [slot_file]
    split
    · exact Candidate.sorted_insert (h t')
    · exact h t'

theorem ne_nil_of_fileAll {index : RuleIndex α} (h : ∀ t, index.get? t ≠ some []) (n : Nat)
    (rules : List (Rule α)) (t : Trigger α) : (index.fileAll n rules).get? t ≠ some [] := by
  induction rules generalizing index n with
  | nil => exact h t
  | cons r rest ih =>
    apply ih
    intro t'
    rw [file, SortedMap.get?_alter]
    split
    · intro h'
      exact Candidate.insert_ne_nil _ _ (Option.some.inj h')
    · exact h t'

end RuleIndex

namespace Rulebook

theorem filed_perm (b : Rulebook α) : b.index.filed.Perm (numbered 0 b.rules) := by
  have h := RuleIndex.filed_fileAll .empty 0 b.rules
  rw [b.index_eq]
  simpa [RuleIndex.filed, SortedMap.empty, RuleIndex.ofRules] using h

theorem sorted_candidates (b : Rulebook α) (t : Trigger α) : SlotSorted (b.candidates t) := by
  rw [candidates, b.index_eq]
  refine RuleIndex.sorted_slot_fileAll ?_ 0 b.rules t
  intro t'
  exact List.Pairwise.nil

theorem ne_nil_of_mem_index {b : Rulebook α} {t : Trigger α} {slot : List (Candidate α)}
    (h : (t, slot) ∈ b.index.entries) : slot ≠ [] := by
  intro hempty
  rw [hempty] at h
  have hget := SortedMap.mem_entries_iff.1 h
  rw [b.index_eq] at hget
  exact RuleIndex.ne_nil_of_fileAll (fun _ => by simp) 0 b.rules t hget

theorem candidates_of_mem_index {b : Rulebook α} {t : Trigger α} {slot : List (Candidate α)}
    (h : (t, slot) ∈ b.index.entries) : b.candidates t = slot := by
  rw [candidates, RuleIndex.slot, SortedMap.mem_entries_iff.1 h, Option.getD_some]

theorem trigger_of_mem_index {b : Rulebook α} {t : Trigger α} {slot : List (Candidate α)}
    (h : (t, slot) ∈ b.index.entries) {c : Candidate α} (hc : c ∈ slot) :
    c.rule.trigger = t ∧ b.rules[c.number]? = some c.rule := by
  rw [← candidates_of_mem_index h] at hc
  exact mem_candidates_iff.1 hc

theorem filter_flatMap_entries {t : Trigger α} {l : List (Trigger α × List (Candidate α))}
    (ascending : l.Pairwise fun p q => p.1 < q.1)
    (own : ∀ p ∈ l, ∀ c ∈ p.2, c.rule.trigger = p.1) :
    (l.flatMap (·.2)).filter (fun c => c.rule.trigger = t) = (Entries.lookup t l).getD [] := by
  induction l with
  | nil => rfl
  | cons entry rest ih =>
    obtain ⟨t', slot⟩ := entry
    obtain ⟨hbelow, hrest⟩ := List.pairwise_cons.1 ascending
    have ih := ih hrest fun p hp => own p (List.mem_cons_of_mem _ hp)
    have hown : ∀ c ∈ slot, c.rule.trigger = t' := own (t', slot) List.mem_cons_self
    rw [List.flatMap_cons, List.filter_append, ih, Entries.lookup]
    by_cases ht : t = t'
    · -- keys ascend, so the slots that follow have other triggers
      subst ht
      have hnone : Entries.lookup t rest = none := Entries.lookup_eq_none_of_lt hbelow
      have hall : slot.filter (fun c => c.rule.trigger = t) = slot :=
        List.filter_eq_self.2 fun c hc => by simp [hown c hc]
      simp [hnone, hall]
    · have hempty : slot.filter (fun c => c.rule.trigger = t) = [] := by
        rw [List.filter_eq_nil_iff]
        intro c hc
        simp [hown c hc, Ne.symm ht]
      simp [ht, hempty]

theorem candidates_eq_filter (b : Rulebook α) (t : Trigger α) :
    b.candidates t = b.index.filed.filter fun c => c.rule.trigger = t := by
  refine (filter_flatMap_entries b.index.ascending ?_).symm
  intro p hp c hc
  exact (trigger_of_mem_index hp hc).1

theorem length_candidates (b : Rulebook α) (t : Trigger α) :
    (b.candidates t).length = (b.rules.map Rule.trigger).count t := by
  have hperm := (filed_perm b).filter fun c => c.rule.trigger = t
  rw [candidates_eq_filter, hperm.length_eq, ← List.countP_eq_length_filter, List.count,
    List.countP_map]
  conv => rhs; rw [← map_rule_numbered 0 b.rules, List.countP_map]
  apply List.countP_congr
  intro c _
  simp

/-! ## What is looked up -/

theorem first?_eq_none_iff {b : Rulebook α} {t : Trigger α} :
    b.first? t = none ↔ ∀ r ∈ b.rules, r.trigger ≠ t := by
  rw [first?, Option.map_eq_none_iff, List.head?_eq_none_iff]
  refine ⟨?_, ?_⟩
  · intro h r hr ht
    obtain ⟨n, hn⟩ := List.getElem?_of_mem hr
    have hmem : ⟨n, r⟩ ∈ b.candidates t := mem_candidates_iff.2 ⟨ht, hn⟩
    rw [h] at hmem
    exact absurd hmem List.not_mem_nil
  · intro h
    rw [List.eq_nil_iff_forall_not_mem]
    intro c hc
    obtain ⟨ht, hn⟩ := mem_candidates_iff.1 hc
    exact h c.rule (List.mem_of_getElem? hn) ht

theorem mem_of_first? {b : Rulebook α} {t : Trigger α} {r : Rule α} (h : b.first? t = some r) :
    r ∈ b.rules ∧ r.trigger = t := by
  obtain ⟨c, hc, rfl⟩ := Option.map_eq_some_iff.1 h
  obtain ⟨ht, hn⟩ := mem_candidates_iff.1 (List.mem_of_head? hc)
  exact ⟨List.mem_of_getElem? hn, ht⟩

theorem first?_text_le {b : Rulebook α} {t : Trigger α} {r s : Rule α} (h : b.first? t = some r)
    (hs : s ∈ b.rules) (ht : s.trigger = t) : ¬ s.text < r.text := by
  obtain ⟨c, hc, rfl⟩ := Option.map_eq_some_iff.1 h
  obtain ⟨n, hn⟩ := List.getElem?_of_mem hs
  have hmem : ⟨n, s⟩ ∈ b.candidates t := mem_candidates_iff.2 ⟨ht, hn⟩
  have hsorted := sorted_candidates b t
  obtain ⟨rest, hrest⟩ := List.head?_eq_some_iff.1 hc
  rw [hrest] at hmem hsorted
  obtain ⟨hleast, _⟩ := List.pairwise_cons.1 hsorted
  rcases List.mem_cons.1 hmem with heq | hin
  · rw [← heq]
    exact Ordered.irrefl s.text
  · exact hleast ⟨n, s⟩ hin

theorem first?_isSome_iff {b : Rulebook α} {t : Trigger α} :
    (b.first? t).isSome ↔ ∃ r ∈ b.rules, r.trigger = t := by
  refine ⟨?_, ?_⟩
  · intro h
    obtain ⟨r, hr⟩ := Option.isSome_iff_exists.1 h
    exact ⟨r, mem_of_first? hr⟩
  · intro ⟨r, hr, ht⟩
    cases h : b.first? t with
    | none => exact absurd ht (first?_eq_none_iff.1 h r hr)
    | some s => rfl

theorem first?_eq_some_of_unique {b : Rulebook α} {r : Rule α} (hr : r ∈ b.rules)
    (unique : ∀ s ∈ b.rules, s.trigger = r.trigger → s = r) : b.first? r.trigger = some r := by
  cases h : b.first? r.trigger with
  | none => exact absurd rfl (first?_eq_none_iff.1 h r hr)
  | some s =>
    obtain ⟨hs, ht⟩ := mem_of_first? h
    rw [unique s hs ht]

theorem first?_push_of_free {b : Rulebook α} {r : Rule α} (free : b.first? r.trigger = none)
    (t : Trigger α) : (b.push r).first? t = if t = r.trigger then some r else b.first? t := by
  have hslot : (b.push r).candidates t = if t = r.trigger then
      Candidate.insert ⟨b.rules.length, r⟩ (b.candidates t) else b.candidates t :=
    RuleIndex.slot_file b.index ⟨b.rules.length, r⟩ t
  rw [first?, hslot]
  split
  · next ht =>
    rw [first?, Option.map_eq_none_iff, List.head?_eq_none_iff] at free
    rw [ht, free]
    rfl
  · rfl

/-- The rules in the order of their texts. -/
def byText (b : Rulebook α) : List (Rule α) := b.rules.mergeSort fun r s => ¬ s.text < r.text

theorem pairwise_byText (b : Rulebook α) : b.byText.Pairwise fun r s => ¬ s.text < r.text :=
  Ordered.pairwise_mergeSort (R := fun r s => r.text < s.text) Ordered.asymm
    Ordered.not_lt_trans b.rules

theorem mem_byText {b : Rulebook α} {r : Rule α} : r ∈ b.byText ↔ r ∈ b.rules :=
  (List.mergeSort_perm b.rules _).mem_iff

/-- The first rule of a slot has the text of the first match among all rules sorted by text. -/
theorem text_first? (b : Rulebook α) (t : Trigger α) :
    (b.first? t).map Rule.text = (b.byText.find? fun r => r.trigger = t).map Rule.text := by
  cases hfirst : b.first? t with
  | none =>
    have hnone : b.byText.find? (fun r => r.trigger = t) = none := by
      rw [List.find?_eq_none]
      intro r hr
      simpa using first?_eq_none_iff.1 hfirst r (mem_byText.1 hr)
    rw [hnone]
  | some r =>
    obtain ⟨hr, ht⟩ := mem_of_first? hfirst
    cases hfind : b.byText.find? (fun r => r.trigger = t) with
    | none =>
      rw [List.find?_eq_none] at hfind
      exact absurd ht (by simpa using hfind r (mem_byText.2 hr))
    | some s =>
      obtain ⟨hs, before, after, hsplit, hbefore⟩ := List.find?_eq_some_iff_append.1 hfind
      have hst : s.trigger = t := by simpa using hs
      have hsmem : s ∈ b.rules := mem_byText.1 (hsplit ▸ by simp)
      -- `r` does not stand before the first match, so its text is not less
      have hle : ¬ r.text < s.text := by
        have hrin : r ∈ before ++ s :: after := hsplit ▸ mem_byText.2 hr
        rcases List.mem_append.1 hrin with hin | hin
        · exact absurd ht (by simpa using hbefore r hin)
        · rcases List.mem_cons.1 hin with rfl | hin
          · exact Ordered.irrefl _
          · have hsorted := pairwise_byText b
            rw [hsplit] at hsorted
            exact (List.pairwise_cons.1 (List.pairwise_append.1 hsorted).2.1).1 r hin
      rcases Ordered.not_lt_iff.1 hle with heq | hlt
      · simp [heq]
      · exact absurd hlt (first?_text_le hfirst hsmem hst)

/-! ## What is listed -/

theorem leaving_eq_map_filter (b : Rulebook α) (q : StateId) :
    b.leaving q = (b.index.filed.filter fun c => c.rule.source.id = q).map Candidate.rule := by
  rw [RuleIndex.filed, List.filter_flatMap, List.map_flatMap, leaving]
  apply List.flatMap_congr
  intro entry hentry
  have hown : ∀ c ∈ entry.2, c.rule.source.id = entry.1.source := by
    intro c hc
    rw [← (trigger_of_mem_index hentry hc).1]
    rfl
  split
  · next hq =>
    have hall : entry.2.filter (fun c => c.rule.source.id = q) = entry.2 :=
      List.filter_eq_self.2 fun c hc => by simp [hown c hc, hq]
    rw [hall]
  · next hq =>
    have hempty : entry.2.filter (fun c => c.rule.source.id = q) = [] :=
      List.filter_eq_nil_iff.2 fun c hc => by simp [hown c hc, hq]
    rw [hempty, List.map_nil]

theorem leaving_perm (b : Rulebook α) (q : StateId) :
    (b.leaving q).Perm (b.rules.filter fun r => r.source.id = q) := by
  have hperm := ((filed_perm b).filter fun c => c.rule.source.id = q).map Candidate.rule
  have hscan : ((numbered 0 b.rules).filter fun c => c.rule.source.id = q).map Candidate.rule =
      b.rules.filter fun r => r.source.id = q := by
    conv => rhs; rw [← map_rule_numbered 0 b.rules, List.filter_map]
    rfl
  rw [leaving_eq_map_filter, ← hscan]
  exact hperm

theorem pairwise_leaving (b : Rulebook α) (q : StateId) :
    (b.leaving q).Pairwise fun r s =>
      r.symbol < s.symbol ∨ (r.symbol = s.symbol ∧ ¬ s.text < r.text) := by
  rw [leaving, List.pairwise_flatMap]
  refine ⟨?_, ?_⟩
  · -- within one slot the symbol is the same
    intro entry hentry
    split
    · rw [List.pairwise_map]
      have hsorted := sorted_candidates b entry.1
      rw [candidates_of_mem_index hentry] at hsorted
      apply hsorted.imp_of_mem
      intro c d hc hd hle
      refine .inr ⟨?_, hle⟩
      have hct := (trigger_of_mem_index hentry hc).1
      have hdt := (trigger_of_mem_index hentry hd).1
      exact congrArg Trigger.symbol (hct.trans hdt.symm)
    · exact List.Pairwise.nil
  · -- slots of one source come by symbol
    apply b.index.ascending.imp_of_mem
    intro entry entry' hentry hentry' hlt r hr s hs
    split at hr
    · next hq =>
      split at hs
      · next hq' =>
        obtain ⟨c, hc, rfl⟩ := List.mem_map.1 hr
        obtain ⟨d, hd, rfl⟩ := List.mem_map.1 hs
        have hct := (trigger_of_mem_index hentry hc).1
        have hdt := (trigger_of_mem_index hentry' hd).1
        have hcs : c.rule.symbol = entry.1.symbol := congrArg Trigger.symbol hct
        have hds : d.rule.symbol = entry'.1.symbol := congrArg Trigger.symbol hdt
        rcases hlt with hsource | ⟨_, hsymbol⟩
        · rw [hq, hq'] at hsource
          exact absurd hsource (Ordered.irrefl q)
        · exact .inl (by rw [hcs, hds]; exact hsymbol)
      · exact absurd hs List.not_mem_nil
    · exact absurd hr List.not_mem_nil

theorem isDeterministic_iff {b : Rulebook α} :
    b.isDeterministic ↔ (b.rules.map Rule.trigger).Nodup := by
  rw [isDeterministic, groups, List.all_eq_true, List.nodup_iff_count]
  refine ⟨?_, ?_⟩
  · intro h t
    rw [← length_candidates, candidates, RuleIndex.slot]
    cases hget : b.index.get? t with
    | none => exact Nat.zero_le 1
    | some slot =>
      have hentry := SortedMap.mem_entries_iff.2 hget
      have hgroup := h (t, slot.length) (List.mem_map.2 ⟨(t, slot), hentry, rfl⟩)
      simpa using hgroup
  · intro h group hgroup
    obtain ⟨⟨t, slot⟩, hentry, rfl⟩ := List.mem_map.1 hgroup
    have hcount := h t
    rw [← length_candidates, candidates_of_mem_index hentry] at hcount
    simpa using hcount

/-- Filing a rule puts it at the one place of its slot where its text belongs. -/
theorem candidates_push (b : Rulebook α) (r : Rule α) :
    ∃ k, IsPlace r.text (b.candidates r.trigger) k ∧
      (∀ j, IsPlace r.text (b.candidates r.trigger) j → j = k) ∧
      (b.push r).candidates r.trigger = (b.candidates r.trigger).take k ++
        ⟨b.size, r⟩ :: (b.candidates r.trigger).drop k := by
  obtain ⟨k, hk⟩ := (sorted_candidates b r.trigger).exists_place r.text
  refine ⟨k, hk, fun j hj => hj.unique hk, ?_⟩
  have hfile := RuleIndex.slot_file b.index ⟨b.size, r⟩ r.trigger
  rw [if_pos rfl] at hfile
  exact hfile.trans (Candidate.insert_eq_of_isPlace hk)

end Rulebook

/-! ## The automaton's answers -/

/-- The index of an automaton says what a scan of its rules says. Each rule is filed once, in the
slot of its trigger; no slot is empty; slots are in the order of texts, and a new rule goes to
the one place that keeps them so. Hence what is looked up, what is listed for a state and the
test for determinism are what the rules themselves give. -/
theorem Automaton.index_agrees_with_scan (a : Automaton α) :
    (a.book.index.filed.map Candidate.number).Perm (List.range a.rules.length) ∧
    (∀ t slot, (t, slot) ∈ a.book.index.entries →
      slot ≠ [] ∧ SlotSorted slot ∧
        ∀ c ∈ slot, c.rule.trigger = t ∧ a.rules[c.number]? = some c.rule) ∧
    (∀ r : Rule α, ∃ k, IsPlace r.text (a.book.candidates r.trigger) k ∧
      (∀ j, IsPlace r.text (a.book.candidates r.trigger) j → j = k) ∧
      (a.book.push r).candidates r.trigger = (a.book.candidates r.trigger).take k ++
        ⟨a.book.size, r⟩ :: (a.book.candidates r.trigger).drop k) ∧
    (∀ q x,
      ((a.ruleFor? q x).isSome ↔ ∃ r ∈ a.rules, r.source.id = q ∧ r.symbol = x) ∧
      (∀ r, a.ruleFor? q x = some r → r ∈ a.rules ∧ r.source.id = q ∧ r.symbol = x ∧
        ∀ s ∈ a.rules, s.source.id = q → s.symbol = x → ¬ s.text < r.text) ∧
      (a.ruleFor? q x).map Rule.text =
        (a.book.byText.find? fun r => r.source.id = q ∧ r.symbol = x).map Rule.text) ∧
    (∀ q,
      (a.transitionsFrom q).Perm (a.rules.filter fun r => r.source.id = q) ∧
      (a.transitionsFrom q).Pairwise fun r s =>
        r.symbol < s.symbol ∨ (r.symbol = s.symbol ∧ ¬ s.text < r.text)) ∧
    (a.isDeterministic ↔ (a.rules.map Rule.trigger).Nodup) := by
  have htrigger : ∀ (r : Rule α) (q : StateId) (x : α),
      r.trigger = ⟨q, x⟩ ↔ r.source.id = q ∧ r.symbol = x := by
    intro r q x
    simp [Rule.trigger]
  refine ⟨?_, ?_, a.book.candidates_push, ?_, ?_, Rulebook.isDeterministic_iff⟩
  · have hperm := (Rulebook.filed_perm a.book).map Candidate.number
    rw [map_number_numbered, ← List.range_eq_range'] at hperm
    exact hperm
  · intro t slot hentry
    have hsorted := Rulebook.sorted_candidates a.book t
    rw [Rulebook.candidates_of_mem_index hentry] at hsorted
    exact ⟨Rulebook.ne_nil_of_mem_index hentry, hsorted,
      fun c hc => Rulebook.trigger_of_mem_index hentry hc⟩
  · intro q x
    refine ⟨?_, ?_, ?_⟩
    · simp only [ruleFor?, rules, Rulebook.first?_isSome_iff, htrigger]
    · intro r hr
      obtain ⟨hmem, ht⟩ := Rulebook.mem_of_first? hr
      obtain ⟨hq, hx⟩ := (htrigger r q x).1 ht
      refine ⟨hmem, hq, hx, ?_⟩
      intro s hs hsq hsx
      exact Rulebook.first?_text_le hr hs ((htrigger s q x).2 ⟨hsq, hsx⟩)
    · rw [ruleFor?, Rulebook.text_first?]
      simp only [htrigger]
  · intro q
    exact ⟨a.book.leaving_perm q, a.book.pairwise_leaving q⟩

end Acceptor
