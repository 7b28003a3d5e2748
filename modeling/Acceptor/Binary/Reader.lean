/-!
  Acceptor.Binary.Reader — readers of bytes

  A reader takes a value off the front of some bytes and leaves the rest. It never looks past
  what it takes: bytes that follow change neither the value nor what was taken, which is a part
  of the type.

  Main statements:
    1. `Reader.run_eq_none_of_append` — a reader that takes bytes to the last one finds nothing
       in fewer of them.
    2. `run_unsigned`, `run_times` — numbers and repetitions are read back.
-/

namespace Acceptor.Binary

/-- A reader of values of a type. -/
structure Reader (α : Type) where
  run : List UInt8 → Option (α × List UInt8)
  run_append : ∀ {bytes rest : List UInt8} {a : α}, run bytes = some (a, rest) →
    ∀ more, run (bytes ++ more) = some (a, rest ++ more)

namespace Reader

/-- What a reader finds at the front of some bytes; it does not matter what is left. -/
def first? {α : Type} (r : Reader α) (bytes : List UInt8) : Option α := (r.run bytes).map (·.1)

theorem run_eq_none_of_append {α : Type} {r : Reader α} {bytes more : List UInt8} {a : α}
    (h : r.run (bytes ++ more) = some (a, [])) (ne : more ≠ []) : r.run bytes = none := by
  cases hr : r.run bytes with
  | none => rfl
  | some p =>
    have longer := (r.run_append hr more).symm.trans h
    simp only [Option.some.injEq, Prod.mk.injEq, List.append_eq_nil_iff] at longer
    exact absurd longer.2.2 ne

/-! ## Combining readers -/

instance : Monad Reader where
  pure a := {
    run := fun bytes => some (a, bytes)
    run_append := by
      intro bytes rest b h more
      cases h
      rfl }
  bind r f := {
    run := fun bytes => (r.run bytes).bind fun p => (f p.1).run p.2
    run_append := by
      intro bytes rest b h more
      obtain ⟨⟨a, middle⟩, hr, hf⟩ := Option.bind_eq_some_iff.1 h
      rw [r.run_append hr more, Option.bind_some]
      exact (f a).run_append hf more }

def fail {α : Type} : Reader α where
  run _ := none
  run_append h := nomatch h

/-- Takes nothing and finds a value where there is one. -/
def ofOption {α : Type} (value : Option α) : Reader α := value.elim fail pure

def take (n : Nat) : Reader (List UInt8) where
  run bytes := if n ≤ bytes.length then some (bytes.take n, bytes.drop n) else none
  run_append := by
    intro bytes rest b h more
    split at h
    · rename_i le
      cases h
      rw [if_pos (by rw [List.length_append]; omega), List.take_append_of_le_length le,
        List.drop_append_of_le_length le]
    · cases h

/-- Takes values one after another, some number of them. -/
def times {α : Type} (r : Reader α) : Nat → Reader (List α)
  | 0 => pure []
  | n + 1 => do
    let a ← r
    let rest ← times r n
    return a :: rest

theorem run_pure {α : Type} (a : α) (bytes : List UInt8) :
    (pure a : Reader α).run bytes = some (a, bytes) := rfl

theorem run_bind {α β : Type} {r : Reader α} {f : α → Reader β} {bytes rest : List UInt8}
    {a : α} (h : r.run bytes = some (a, rest)) : (r >>= f).run bytes = (f a).run rest := by
  show (r.run bytes).bind (fun p => (f p.1).run p.2) = _
  rw [h, Option.bind_some]

theorem run_map {α β : Type} {r : Reader α} {f : α → β} {bytes rest : List UInt8} {a : α}
    (h : r.run bytes = some (a, rest)) : (f <$> r).run bytes = some (f a, rest) :=
  run_bind h

theorem run_ofOption_some {α : Type} (a : α) (bytes : List UInt8) :
    (ofOption (some a)).run bytes = some (a, bytes) := rfl

theorem run_take {taken rest : List UInt8} {n : Nat} (h : taken.length = n) :
    (take n).run (taken ++ rest) = some (taken, rest) := by
  subst h
  rw [take]
  simp

theorem run_times {α : Type} {r : Reader α} {encode : α → List UInt8} {l : List α}
    (h : ∀ a ∈ l, ∀ rest, r.run (encode a ++ rest) = some (a, rest)) (rest : List UInt8) :
    (r.times l.length).run (l.flatMap encode ++ rest) = some (l, rest) := by
  induction l with
  | nil => rfl
  | cons a l ih =>
    have tail := ih fun b hb => h b (List.mem_cons_of_mem a hb)
    rw [List.flatMap_cons, List.append_assoc, List.length_cons, times,
      run_bind (h a (List.mem_cons_self ..) _), run_bind tail, run_pure]

end Reader

/-! ## Numbers -/

/-- How many numbers so many bytes can write. -/
def capacity : Nat → Nat
  | 0 => 1
  | width + 1 => 256 * capacity width

/-- A number as so many bytes, the least significant first. -/
def littleEndian : Nat → Nat → List UInt8
  | 0, _ => []
  | width + 1, n => UInt8.ofNat n :: littleEndian width (n / 256)

/-- The number that bytes write, the least significant first. -/
def ofLittleEndian : List UInt8 → Nat
  | [] => 0
  | b :: rest => b.toNat + 256 * ofLittleEndian rest

@[simp] theorem length_littleEndian (width n : Nat) : (littleEndian width n).length = width := by
  induction width generalizing n with
  | zero => rfl
  | succ width ih => rw [littleEndian, List.length_cons, ih]

theorem ofLittleEndian_littleEndian {width n : Nat} (h : n < capacity width) :
    ofLittleEndian (littleEndian width n) = n := by
  induction width generalizing n with
  | zero =>
    obtain rfl : n = 0 := Nat.lt_one_iff.1 h
    rfl
  | succ width ih =>
    rw [littleEndian, ofLittleEndian, ih (Nat.div_lt_of_lt_mul h), UInt8.toNat_ofNat']
    omega

/-- A number of so many bytes. -/
def unsigned (width : Nat) : Reader Nat := ofLittleEndian <$> Reader.take width

theorem run_unsigned {width n : Nat} (h : n < capacity width) (rest : List UInt8) :
    (unsigned width).run (littleEndian width n ++ rest) = some (n, rest) := by
  rw [unsigned, Reader.run_map (Reader.run_take (length_littleEndian width n)),
    ofLittleEndian_littleEndian h]

end Acceptor.Binary
