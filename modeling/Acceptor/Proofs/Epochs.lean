import Acceptor.Registry
import Mathlib.Data.List.Range
import Mathlib.Logic.Relation

/-!
  Acceptor.Proofs.Epochs — what a registry issues between two resets

  A request is granted with the number that the counter shows, unless that is the last one; then it
  is refused, and the counter stays where it is for whatever is asked next. So the numbers granted
  since a reset are the first ones there are, each once, and a reset is the only way back.

  A derived state carries the root of its parent's lineage on. Where parents are taken from the run
  itself, each lineage goes back to a state of the run that has no parent. That state may have been
  issued before a reset; then another state of the run may have its number too.

  Main statements:
    1. `Registry.serve_cases` — what one request does.
    2. `Registry.numbers_eq` — which numbers are issued while nothing is reset.
    3. `Registry.lineageRoot_of_derived` — what derivations keep, any number of them.
    4. `Registry.SelfContained.foundedIn` — where a lineage begins.
    5. `Registry.unaliased_between_resets` — all of it, for registries that begin a run.
-/

namespace Acceptor.Registry

/-- What asks a registry for a state. A parent may be any state, whoever issued it. -/
inductive Request where
  | create (parent : Option State)
  | derive (parent : State)
  deriving DecidableEq

/-- The ancestor that the state asked for is to have. -/
def Request.ancestor : Request → Option StateId
  | create parent => parent.map State.id
  | derive parent => some parent.lineageRoot

/-- An operation on a registry. -/
inductive Operation where
  | request (request : Request)
  | reset

variable {r : Registry} {first : Nat} {ops : List Operation} {p q : State}

/-- The attempt that a request asks for. -/
def attempt (r : Registry) : Request → Except Error (State × Registry)
  | .create parent => r.create parent
  | .derive parent => r.derive parent

/-- The registry after a request, and the answer. A failure leaves the registry as it was. -/
def serve (r : Registry) (request : Request) : Registry × Except Error State :=
  match r.attempt request with
  | .ok (q, r') => (r', .ok q)
  | .error e => (r, .error e)

/-- The registry after an operation. -/
def apply (r : Registry) : Operation → Registry
  | .request request => (r.serve request).1
  | .reset => r.reset

/-- The registry after operations, one after another. -/
def runAll (r : Registry) (ops : List Operation) : Registry := ops.foldl apply r

/-- The request that an operation makes and the state issued for it, if it is granted. -/
def granted? (r : Registry) : Operation → Option (Request × State)
  | .request request => (r.serve request).2.toOption.map fun q => (request, q)
  | .reset => none

/-- The requests granted in a run, in order, each with its state. -/
def record (r : Registry) : List Operation → List (Request × State)
  | [] => []
  | op :: rest => (r.granted? op).toList ++ (r.apply op).record rest

def states (r : Registry) (ops : List Operation) : List State := (r.record ops).map Prod.snd

def numbers (r : Registry) (ops : List Operation) : List Nat :=
  (r.states ops).map fun q => q.id.toNat

/-- Whether a registry can begin a run, and the number of its first state. -/
inductive Begins : Registry → Nat → Prop where
  | new : Begins new 0
  | resumed {last : StateId} {r : Registry} (h : resumeAfter last = .ok r) :
      Begins r (last.toNat + 1)

/-! ## One request -/

theorem attempt_eq (r : Registry) (request : Request) :
    r.attempt request = r.allocate request.ancestor := by
  cases request <;> rfl

/-- At the last number a request is refused and leaves the counter there. Before it, the request is
granted with the number that the counter shows, and the counter goes on by one. -/
theorem serve_cases (r : Registry) (request : Request) :
    (r.next = limit ∧ r.serve request = (r, .error .exhausted)) ∨
    ∃ q r', r.serve request = (r', .ok q) ∧ q.id.val = r.next ∧ q.ancestor = request.ancestor ∧
      r'.issued = r.issued + 1 := by
  have hlimit := toNat_limit
  rw [serve, attempt_eq]
  cases h : r.allocate request.ancestor with
  | error e =>
    have hfull := allocate_eq_error_iff.1 h
    exact .inl ⟨next_eq_limit_iff.2 (by omega), rfl⟩
  | ok granted =>
    obtain ⟨_, hid, hancestor, hissued⟩ := allocate_eq_ok_iff.1 h
    exact .inr ⟨_, _, rfl, UInt64.toNat_inj.1 hid, hancestor, hissued⟩

theorem Begins.issued (h : Begins r first) : r.issued = first := by
  cases h with
  | new => rfl
  | resumed h => exact (resumeAfter_eq_ok_iff.1 h).2

/-! ## Requests between two resets -/

theorem numbers_cons_of_granted {request : Request} {r' : Registry}
    (granted : r.serve request = (r', .ok q)) (rest : List Operation) :
    r.numbers (.request request :: rest) = q.id.toNat :: r'.numbers rest := by
  rw [numbers, states, record, granted?, apply, granted]
  rfl

theorem numbers_cons_of_refused {request : Request} {e : Error}
    (refused : r.serve request = (r, .error e)) (rest : List Operation) :
    r.numbers (.request request :: rest) = r.numbers rest := by
  rw [numbers, states, record, granted?, apply, refused]
  rfl

/-- While nothing is reset, the numbers issued are those from the counter on, one for each request
until they are used up. -/
theorem numbers_eq (r : Registry) (requests : List Request) :
    r.numbers (requests.map .request) =
      List.range' r.issued (min requests.length (limit.toNat - r.issued)) := by
  induction requests generalizing r with
  | nil => rw [List.length_nil, Nat.zero_min]; rfl
  | cons request rest ih =>
    rw [List.map_cons, List.length_cons]
    rcases r.serve_cases request with ⟨hlast, hserve⟩ | ⟨q, r', hserve, hid, _, hissued⟩
    · -- no number is left, for this request or for a later one
      have hnone : limit.toNat - r.issued = 0 := by
        rw [next_eq_limit_iff.1 hlast, Nat.sub_self]
      rw [numbers_cons_of_refused hserve, ih, hnone, Nat.min_zero, Nat.min_zero]
    · have hnumber : q.id.toNat = r.issued := congrArg UInt64.toNat hid
      have hbound := r'.issued_le_limit
      have hleft : min rest.length (limit.toNat - r'.issued) + 1 =
          min (rest.length + 1) (limit.toNat - r.issued) := by
        omega
      calc r.numbers (.request request :: rest.map .request)
          = q.id.toNat :: r'.numbers (rest.map .request) := numbers_cons_of_granted hserve _
        _ = r.issued :: List.range' (r.issued + 1)
              (min rest.length (limit.toNat - r'.issued)) := by rw [ih, hnumber, hissued]
        _ = List.range' r.issued (min rest.length (limit.toNat - r'.issued) + 1) :=
              List.range'_succ.symm
        _ = List.range' r.issued (min (rest.length + 1) (limit.toNat - r.issued)) := by
              rw [hleft]

theorem pairwise_states (r : Registry) (requests : List Request) :
    (r.states (requests.map .request)).Pairwise fun p q => p.id < q.id := by
  have hnumbers : (r.numbers (requests.map .request)).Pairwise (· < ·) := by
    rw [numbers_eq]
    exact List.pairwise_lt_range'
  exact (List.pairwise_map.1 hnumbers).imp StateId.lt_iff_toNat_lt.2

/-! ## Runs -/

theorem record_append (r : Registry) (ops ops' : List Operation) :
    r.record (ops ++ ops') = r.record ops ++ (r.runAll ops).record ops' := by
  induction ops generalizing r with
  | nil => rfl
  | cons op rest ih =>
    rw [List.cons_append, record, record, ih, List.append_assoc]
    rfl

theorem numbers_append_reset (r : Registry) (before : List Operation) (requests : List Request) :
    r.numbers (before ++ .reset :: requests.map .request) =
      r.numbers before ++ List.range (min requests.length limit.toNat) := by
  have hreset : (r.runAll before).record (.reset :: requests.map .request) =
      new.record (requests.map .request) := rfl
  have hnew := new.numbers_eq requests
  rw [numbers, states] at hnew
  rw [numbers, states, record_append, hreset, List.map_append, List.map_append, hnew,
    List.range_eq_range']
  rfl

theorem of_granted {op : Operation} {request : Request}
    (h : r.granted? op = some (request, q)) :
    op = .request request ∧ q.id.val ≠ limit ∧ q.ancestor = request.ancestor := by
  cases op with
  | reset => exact nomatch h
  | request asked =>
    rw [granted?] at h
    rcases r.serve_cases asked with ⟨_, hserve⟩ | ⟨s, r', hserve, hid, hancestor, hissued⟩
    · rw [hserve] at h
      exact nomatch h
    · rw [hserve] at h
      obtain ⟨rfl, rfl⟩ := Prod.mk.inj (Option.some.inj h)
      refine ⟨rfl, ?_, hancestor⟩
      intro hlast
      have hnext := r'.issued_le_limit
      rw [hissued, next_eq_limit_iff.1 (hid.symm.trans hlast)] at hnext
      exact absurd hnext (Nat.not_succ_le_self _)

theorem of_mem_record {request : Request} (h : (request, q) ∈ r.record ops) :
    q.id.val ≠ limit ∧ q.ancestor = request.ancestor := by
  induction ops generalizing r with
  | nil => exact absurd h List.not_mem_nil
  | cons op rest ih =>
    rcases List.mem_append.1 h with hnow | hlater
    · exact (of_granted (Option.mem_toList.1 hnow)).2
    · exact ih hlater

theorem mem_states_iff : q ∈ r.states ops ↔ ∃ request, (request, q) ∈ r.record ops := by
  simp [states]

/-! ## Lineages -/

/-- Whether one state was issued in a run as derived from another. -/
def DerivedIn (r : Registry) (ops : List Operation) (p q : State) : Prop :=
  (.derive p, q) ∈ r.record ops

/-- Derivations, any number of them, one after another and in whatever epochs, keep the root. -/
theorem lineageRoot_of_derived (h : Relation.ReflTransGen (r.DerivedIn ops) p q) :
    q.lineageRoot = p.lineageRoot := by
  induction h with
  | refl => rfl
  | tail _ derived ih =>
    have hancestor := (of_mem_record derived).2
    exact ((State.lineageRoot_of_ancestor _).2 _ hancestor).trans ih

/-- Whether a run takes its parents from itself: it creates states without a parent, and derives
states from those that it issued before, in the same epoch or in an earlier one. -/
inductive SelfContained (r : Registry) : List Operation → Prop where
  | nil : SelfContained r []
  | create {ops : List Operation} (h : SelfContained r ops) :
      SelfContained r (ops ++ [.request (.create none)])
  | derive {ops : List Operation} {p : State} (h : SelfContained r ops) (hp : p ∈ r.states ops) :
      SelfContained r (ops ++ [.request (.derive p)])
  | reset {ops : List Operation} (h : SelfContained r ops) : SelfContained r (ops ++ [.reset])

/-- Whether a state comes, by derivations of a run, from a state of the run without a parent. -/
def FoundedIn (r : Registry) (ops : List Operation) (q : State) : Prop :=
  ∃ founder ∈ r.states ops, founder.ancestor = none ∧
    Relation.ReflTransGen (r.DerivedIn ops) founder q

theorem mem_record_append_singleton {op : Operation} {entry : Request × State} :
    entry ∈ r.record (ops ++ [op]) ↔
      entry ∈ r.record ops ∨ (r.runAll ops).granted? op = some entry := by
  rw [record_append, List.mem_append, record, record, List.append_nil, Option.mem_toList]

theorem mem_states_append_singleton {op : Operation} :
    q ∈ r.states (ops ++ [op]) ↔
      q ∈ r.states ops ∨ ∃ request, (r.runAll ops).granted? op = some (request, q) := by
  simp only [mem_states_iff, mem_record_append_singleton, exists_or]

theorem FoundedIn.later (h : r.FoundedIn ops q) (op : Operation) :
    r.FoundedIn (ops ++ [op]) q := by
  obtain ⟨founder, hfounder, hnone, hway⟩ := h
  refine ⟨founder, mem_states_append_singleton.2 (.inl hfounder), hnone, ?_⟩
  exact Relation.ReflTransGen.mono
    (fun _ _ h => mem_record_append_singleton.2 (.inl h)) _ _ hway

/-- In a run that takes its parents from itself each lineage begins with a state of the run. -/
theorem SelfContained.foundedIn (h : r.SelfContained ops) (hq : q ∈ r.states ops) :
    r.FoundedIn ops q := by
  -- induction on the run: a state that an operation issues is its own founder, or has its parent's
  induction h generalizing q with
  | nil => exact absurd hq List.not_mem_nil
  | create h ih =>
    rcases mem_states_append_singleton.1 hq with hold | ⟨request, hnew⟩
    · exact (ih hold).later _
    · obtain ⟨hop, _, hancestor⟩ := of_granted hnew
      obtain rfl := Operation.request.inj hop
      exact ⟨q, hq, hancestor, .refl⟩
  | derive h hp ih =>
    rcases mem_states_append_singleton.1 hq with hold | ⟨request, hnew⟩
    · exact (ih hold).later _
    · obtain ⟨hop, _⟩ := of_granted hnew
      obtain rfl := Operation.request.inj hop
      obtain ⟨founder, hfounder, hnone, hway⟩ := (ih hp).later (.request (.derive _))
      exact ⟨founder, hfounder, hnone, hway.tail (mem_record_append_singleton.2 (.inr hnew))⟩
  | reset h ih =>
    rcases mem_states_append_singleton.1 hq with hold | ⟨request, hnew⟩
    · exact (ih hold).later _
    · exact nomatch hnew

/-! ## From the beginning of a run -/

/-- A registry that begins a run issues consecutive numbers, each greater than those before it: from
its first one on, and after a reset from zero on, one for each request while there are numbers below
the last. The last number is never issued: a request that would get it is refused and changes
nothing, and no registry goes on after it. Derivations keep the root of a lineage, any number of
them; where a run takes its parents from itself, the root is a state of the run without a parent. -/
theorem unaliased_between_resets (begins : Begins r first) :
    (∀ requests : List Request, r.numbers (requests.map .request) =
      List.range' first (min requests.length (limit.toNat - first))) ∧
    (∀ before (requests : List Request), r.numbers (before ++ .reset :: requests.map .request) =
      r.numbers before ++ List.range (min requests.length limit.toNat)) ∧
    (∀ before (requests : List Request),
      ((r.runAll before).states (requests.map .request)).Pairwise fun p q => p.id < q.id) ∧
    (∀ ops, ∀ q ∈ r.states ops, q.id.val ≠ limit) ∧
    (∀ (s : Registry) request, (s.next = limit ∧ s.serve request = (s, .error .exhausted)) ∨
      ∃ q s', s.serve request = (s', .ok q) ∧ q.id.val = s.next ∧
        q.ancestor = request.ancestor ∧ s'.issued = s.issued + 1) ∧
    (∀ last, resumeAfter last = .error .exhausted ↔ last.val = limit) ∧
    (∀ ops, r.SelfContained ops → ∀ q ∈ r.states ops,
      ∃ founder ∈ r.states ops, founder.ancestor = none ∧ q.lineageRoot = founder.id) ∧
    (∀ ops p q, Relation.ReflTransGen (r.DerivedIn ops) p q → q.lineageRoot = p.lineageRoot) := by
  refine ⟨?_, r.numbers_append_reset, fun before => pairwise_states _, ?_, serve_cases,
    fun _ => resumeAfter_eq_error_iff, ?_, fun _ _ _ => lineageRoot_of_derived⟩
  · intro requests
    rw [numbers_eq, begins.issued]
  · intro ops q hq
    obtain ⟨request, hmem⟩ := mem_states_iff.1 hq
    exact (of_mem_record hmem).1
  · intro ops selfContained q hq
    obtain ⟨founder, hfounder, hnone, hway⟩ := selfContained.foundedIn hq
    refine ⟨founder, hfounder, hnone, ?_⟩
    rw [lineageRoot_of_derived hway, (State.lineageRoot_of_ancestor founder).1 hnone]

/-- Two numbers are left when the run begins. The third request is refused, and a reset makes room
for a state in the lineage of one that was issued before it. -/
theorem unaliased_at_last_numbers :
    let last : StateId := ⟨limit - 3⟩
    let r : Registry := ⟨limit - 2⟩
    let founder : State := ⟨⟨limit - 2⟩, none⟩
    let child : State := ⟨⟨limit - 1⟩, some founder.id⟩
    let grandchild : State := ⟨⟨0⟩, some founder.id⟩
    let requests : List Request := [.create none, .derive founder, .create none]
    let ops : List Operation := [.request (.create none), .request (.derive founder),
      .request (.create none), .reset, .request (.derive child)]
    Begins r (last.toNat + 1) ∧
      r.numbers (requests.map .request) = [UInt64.size - 3, UInt64.size - 2] ∧
      r.SelfContained ops ∧ r.states ops = [founder, child, grandchild] ∧
      (∃ o ∈ r.states ops, o.ancestor = none ∧ grandchild.lineageRoot = o.id) ∧
      Relation.ReflTransGen (r.DerivedIn ops) founder grandchild ∧
      grandchild.lineageRoot = founder.lineageRoot := by
  intro last r founder child grandchild requests ops
  have resumed : resumeAfter ⟨limit - 3⟩ = .ok ⟨limit - 2⟩ := by rfl
  have begins : Begins r (last.toNat + 1) := .resumed resumed
  obtain ⟨hnumbers, _, _, _, _, _, hroot, hderived⟩ := unaliased_between_resets begins
  have hstates : r.states ops = [founder, child, grandchild] := by decide
  have hself : r.SelfContained ops :=
    .derive (.reset (.create (.derive (.create .nil) (by decide)))) (by decide)
  have hway : Relation.ReflTransGen (r.DerivedIn ops) founder grandchild := by
    refine .tail (.single (b := child) ?_) ?_
    · show (Request.derive founder, child) ∈ r.record ops
      decide
    · show (Request.derive child, grandchild) ∈ r.record ops
      decide
  refine ⟨begins, (hnumbers requests).trans (by decide), hself, hstates, ?_, hway,
    hderived ops _ _ hway⟩
  exact hroot ops hself grandchild (by rw [hstates]; decide)

end Acceptor.Registry
