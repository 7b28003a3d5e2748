import Acceptor.Automaton.Admission
import Acceptor.Automaton.Walk
import Acceptor.Snapshot.Restore

/-!
  Acceptor.Proofs.Reachable — the automata that a caller can come by

  A caller begins with one state or with a restored snapshot, and goes on by operations in any
  order. An operation that is refused, or a step that fails, is part of the run like any other.

  Main statements:
    1. `Automaton.recognize_snd` and `Automaton.trace_snd` — a walk changes nothing but the cursor,
       which ends at the initial state.
    2. `Automaton.runAll_induction` — what an operation preserves holds after every run.
-/

namespace Acceptor

/-- An operation that may change an automaton. Forms that answer a truth value in place of a
cause change the same, and taking a character automaton for a word automaton changes nothing. -/
inductive Operation : (α : Type) → [Letter α] → Type 1 where
  | addRule {α : Type} [Letter α] (rule : Rule α) : Operation α
  /-- Only a word automaton takes its symbols as texts. -/
  | addRuleText (source : State) (payload : String) (destination : State) : Operation Char
  | addFinal {α : Type} [Letter α] (state : State) : Operation α
  | step {α : Type} [Letter α] (symbol : α) : Operation α
  | restart {α : Type} [Letter α] : Operation α
  | recognize {α : Type} [Letter α] (pattern : List α) : Operation α
  | trace {α : Type} [Letter α] (pattern : List α) : Operation α
  | reset {α : Type} [Letter α] (initial : State) : Operation α
  | withPolicy {α : Type} [Letter α] (policy : Policy) : Operation α

namespace Automaton

variable {α : Type} [Letter α]

/-- What an attempt leaves: a refusal leaves the automaton as it was. -/
def settle {β : Type} (a : Automaton α) : Except (Refusal α) (β × Automaton α) → Automaton α
  | .ok (_, b) => b
  | .error _ => a

/-- The automaton after one operation. -/
def apply : {α : Type} → [Letter α] → Automaton α → Operation α → Automaton α
  | _, _, a, @Operation.addRule _ _ rule => a.settle (a.addRule rule)
  | _, _, a, @Operation.addRuleText source payload destination =>
    a.settle (a.addRuleText source payload destination)
  | _, _, a, @Operation.addFinal _ _ state => a.settle (a.addFinal state)
  | _, _, a, @Operation.step _ _ symbol => (a.step symbol).2
  | _, _, a, @Operation.restart _ _ => a.restart
  | _, _, a, @Operation.recognize _ _ pattern => (a.recognize pattern).2
  | _, _, a, @Operation.trace _ _ pattern => (a.trace pattern).2
  | _, _, a, @Operation.reset _ _ initial => a.reset initial
  | _, _, a, @Operation.withPolicy _ _ policy => a.withPolicy policy

/-- The automaton after operations, one after another. -/
def runAll (a : Automaton α) (ops : List (Operation α)) : Automaton α := ops.foldl apply a

/-- Whether an automaton is new: it has one state and nothing else. -/
inductive Fresh : Automaton α → Prop where
  | issued {registry registry' : Registry} {a : Automaton α}
      (h : new registry = .ok (a, registry')) : Fresh a
  | ofInitial (q : State) : Fresh (ofInitial q)

/-- Whether an automaton can begin a run: it is new, or a snapshot was restored to it. -/
inductive Origin : Automaton α → Prop where
  | fresh {a : Automaton α} (h : Fresh a) : Origin a
  | restored {s : Snapshot α} {a : Automaton α} (h : s.restore = .ok a) : Origin a

/-- Whether some run ends in the automaton. -/
def Reachable (a : Automaton α) : Prop :=
  ∃ (b : Automaton α) (ops : List (Operation α)), Origin b ∧ b.runAll ops = a

/-- Whether some run from a new automaton ends in the automaton. -/
def Built (a : Automaton α) : Prop :=
  ∃ (b : Automaton α) (ops : List (Operation α)), Fresh b ∧ b.runAll ops = a

theorem Built.reachable {a : Automaton α} (h : Built a) : Reachable a := by
  obtain ⟨b, ops, hfresh, hrun⟩ := h
  exact ⟨b, ops, .fresh hfresh, hrun⟩

theorem Fresh.eq_ofInitial {a : Automaton α} (h : Fresh a) : ∃ q, a = .ofInitial q := by
  cases h with
  | ofInitial q => exact ⟨q, rfl⟩
  | issued h =>
    unfold new at h
    cases hc : Registry.create _ none with
    | error e => rw [hc] at h; exact absurd h (by simp [bind, Except.bind])
    | ok p =>
      rw [hc] at h
      simp only [bind, Except.bind, pure, Except.pure, Except.ok.injEq, Prod.mk.injEq] at h
      exact ⟨p.1, h.1.symm⟩

/-! ## Walks leave everything but the cursor -/

/-- A step follows a rule that leaves the cursor's state, or changes nothing. -/
theorem step_eq_or (a : Automaton α) (x : α) :
    (a.step x).2 = a ∨ ∃ r ∈ a.rules, r.source.id = a.current ∧
      (a.step x).2 = { a with current := r.destination.id } := by
  unfold step
  split
  · split
    · next r hr =>
      obtain ⟨c, hc, rfl⟩ := Option.map_eq_some_iff.1 hr
      obtain ⟨htrigger, hmem⟩ := Rulebook.mem_candidates_iff.1 (List.mem_of_head? hc)
      exact .inr ⟨c.rule, List.mem_of_getElem? hmem, congrArg Trigger.source htrigger, rfl⟩
    · exact .inl rfl
  · exact .inl rfl

theorem restart_walk (a : Automaton α) (pattern : List α) :
    (a.walk pattern).2.restart = a.restart := by
  induction pattern generalizing a with
  | nil => rfl
  | cons x rest ih =>
    have hstep := restart_step a x
    rw [walk]
    split
    · next b hb =>
      rw [hb] at hstep
      exact (ih b).trans hstep
    · next b hb =>
      rw [hb] at hstep
      exact hstep

theorem restart_follow (a : Automaton α) (run : Run α) (pattern : List α) :
    (a.follow run pattern).2.restart = a.restart := by
  induction pattern generalizing a run with
  | nil => rfl
  | cons x rest ih =>
    have hstep := restart_step a x
    rw [follow]
    split
    · next b hb =>
      rw [hb] at hstep
      exact (ih b _).trans hstep
    · next b hb =>
      rw [hb] at hstep
      exact hstep

theorem recognize_snd (a : Automaton α) (pattern : List α) :
    (a.recognize pattern).2 = a.restart :=
  restart_walk a.restart pattern

theorem trace_snd (a : Automaton α) (pattern : List α) : (a.trace pattern).2 = a.restart :=
  restart_follow a.restart _ pattern

/-! ## Runs -/

/-- What holds at the start and is preserved by each operation holds at the end. -/
theorem runAll_induction {P : Automaton α → Prop} (step : ∀ a op, P a → P (a.apply op))
    {a : Automaton α} (start : P a) (ops : List (Operation α)) : P (a.runAll ops) := by
  induction ops generalizing a with
  | nil => exact start
  | cons op rest ih => exact ih (step a op start)

theorem settle_induction {β : Type} {P : Automaton α → Prop} {a : Automaton α}
    {attempt : Except (Refusal α) (β × Automaton α)} (start : P a)
    (ok : ∀ v b, attempt = .ok (v, b) → P b) : P (a.settle attempt) := by
  cases h : attempt with
  | error e => exact start
  | ok p => exact ok p.1 p.2 h

end Automaton

end Acceptor
