import Acceptor.Letter

/-!
  Acceptor.Term — rooted trees of symbols

  A term is a root symbol with an ordered list of child terms. A word is the chain of its
  symbols, each the only child of the one before it.

  Main statements:
    1. `Term.equal_iff` — the comparison decides equality.
    2. `Term.size_append` and `Term.depth_append` — what a new child does to the measures.
-/

namespace Acceptor

variable {α : Type}

/-- A root symbol and its children. -/
inductive Term (α : Type) where
  | node (root : α) (children : List (Term α))

namespace Term

def root : Term α → α
  | node a _ => a

def children : Term α → List (Term α)
  | node _ ts => ts

def leaf (a : α) : Term α := node a []

def isLeaf (t : Term α) : Bool := t.children.isEmpty

/-- The term with one more child, after the others. -/
def append (t c : Term α) : Term α := node t.root (t.children ++ [c])

mutual

/-- The number of symbols in the term. -/
def size : Term α → Nat
  | node _ ts => sizes ts + 1

def sizes : List (Term α) → Nat
  | [] => 0
  | t :: ts => t.size + sizes ts

end

mutual

/-- The number of symbols on a longest way down. -/
def depth : Term α → Nat
  | node _ ts => depths ts + 1

def depths : List (Term α) → Nat
  | [] => 0
  | t :: ts => max t.depth (depths ts)

end

mutual

/-- Whether two terms have the same shape and the same symbols. -/
def equal [DecidableEq α] : Term α → Term α → Bool
  | node a ts, node b us => a = b && equals ts us

/-- Whether two lists of terms are equal, term by term. -/
def equals [DecidableEq α] : List (Term α) → List (Term α) → Bool
  | [], [] => true
  | t :: ts, u :: us => equal t u && equals ts us
  | [], _ :: _ => false
  | _ :: _, [] => false

end

mutual

/-- The term's text: its root, then its children between parentheses if it has any. -/
def chars [Letter α] : Term α → List Char
  | node a [] => (Letter.text a).toList
  | node a (t :: ts) => (Letter.text a).toList ++ '(' :: (t.chars ++ tails ts)

/-- The texts of further children, each after a comma and a space, and the closing mark. -/
def tails [Letter α] : List (Term α) → List Char
  | [] => [')']
  | t :: ts => ',' :: ' ' :: (t.chars ++ tails ts)

end

/-- The term's text, such as `f(a, g(b))`. -/
def text [Letter α] (t : Term α) : String := String.ofList t.chars

/-- The chain that spells a word from top to bottom; the empty word has none. -/
def ofWord : List α → Option (Term α)
  | [] => none
  | a :: w => some (node a (ofWord w).toList)

mutual

theorem equal_iff [DecidableEq α] : ∀ t u : Term α, equal t u ↔ t = u
  | node a ts, node b us => by simp [equal, equals_iff ts us]

theorem equals_iff [DecidableEq α] : ∀ ts us : List (Term α), equals ts us ↔ ts = us
  | [], [] => by simp [equals]
  | t :: ts, u :: us => by simp [equals, equal_iff t u, equals_iff ts us]
  | [], _ :: _ => by simp [equals]
  | _ :: _, [] => by simp [equals]

end

instance [DecidableEq α] : DecidableEq (Term α) := fun t u =>
  decidable_of_iff _ (equal_iff t u)

/-! ## Measures -/

theorem sizes_append (ts us : List (Term α)) : sizes (ts ++ us) = sizes ts + sizes us := by
  induction ts with
  | nil => simp [sizes]
  | cons t ts ih =>
    rw [List.cons_append, sizes, sizes, ih, Nat.add_assoc]

theorem depths_append (ts us : List (Term α)) :
    depths (ts ++ us) = max (depths ts) (depths us) := by
  induction ts with
  | nil => simp [depths]
  | cons t ts ih =>
    rw [List.cons_append, depths, depths, ih, Nat.max_assoc]

theorem size_append (t c : Term α) : (t.append c).size = t.size + c.size := by
  cases t
  simp only [append, root, children, size, sizes_append, sizes]
  omega

theorem depth_append (t c : Term α) : (t.append c).depth = max t.depth (c.depth + 1) := by
  cases t
  simp only [append, root, children, depth, depths_append, depths]
  omega

end Term

end Acceptor
