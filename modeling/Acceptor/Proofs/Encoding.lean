import Acceptor.Proofs.Storage
import Mathlib.Data.List.TakeDrop

/-!
  Acceptor.Proofs.Encoding — snapshots and their written forms

  A snapshot is read back from its bytes whatever follows them, and from no fewer bytes; so the
  bytes of one snapshot never begin with those of another. All that is asked of it is that the
  counts before its lists and texts fit into eight bytes, which no memory of 64-bit addresses can
  exceed. Nothing else is ever read: whatever snapshot bytes write, its counts fit. As a text every
  snapshot is read back, and a text that is read in another spelling has one spelling from then on.

  Main statements:
    1. `Binary.Reader.Yields` and its lemmas — what a reader can find, by how it is made.
    2. `Snapshot.bytes_self_delimiting` — snapshots as bytes.
    3. `Snapshot.text_read_back` — snapshots as texts.
-/

namespace Acceptor

namespace Binary

/-! ## What readers find -/

namespace Reader

variable {α β : Type}

/-- Whether all that a reader finds has a property. -/
def Yields (r : Reader α) (P : α → Prop) : Prop :=
  ∀ bytes rest a, r.run bytes = some (a, rest) → P a

theorem yields_any (r : Reader α) : r.Yields fun _ => True := fun _ _ _ _ => trivial

theorem yields_pure {P : α → Prop} {a : α} (h : P a) : (pure a : Reader α).Yields P := by
  intro bytes rest b hrun
  obtain ⟨rfl, _⟩ := Prod.mk.inj (Option.some.inj hrun)
  exact h

theorem yields_fail (P : α → Prop) : (fail : Reader α).Yields P := fun _ _ _ h => nomatch h

theorem Yields.bind {r : Reader α} {f : α → Reader β} {P : α → Prop} {Q : β → Prop}
    (hr : r.Yields P) (hf : ∀ a, P a → (f a).Yields Q) : (r >>= f).Yields Q := by
  intro bytes rest b hrun
  obtain ⟨⟨a, middle⟩, hfirst, hsecond⟩ := Option.bind_eq_some_iff.1 hrun
  exact hf a (hr bytes middle a hfirst) middle rest b hsecond

theorem yields_ofOption {P : α → Prop} {o : Option α} (h : ∀ a, o = some a → P a) :
    (ofOption o).Yields P := by
  cases o with
  | none => exact yields_fail P
  | some a => exact yields_pure (h a rfl)

theorem yields_take (n : Nat) : (take n).Yields fun bytes => bytes.length = n := by
  intro bytes rest taken hrun
  change (if n ≤ bytes.length then some (bytes.take n, bytes.drop n) else none) = _ at hrun
  split at hrun
  · next hle =>
    obtain ⟨rfl, _⟩ := Prod.mk.inj (Option.some.inj hrun)
    rw [List.length_take, Nat.min_eq_left hle]
  · exact nomatch hrun

theorem Yields.times {r : Reader α} {P : α → Prop} (hr : r.Yields P) (n : Nat) :
    (r.times n).Yields fun l => l.length = n ∧ ∀ a ∈ l, P a := by
  induction n with
  | zero => exact yields_pure ⟨rfl, fun _ ha => absurd ha List.not_mem_nil⟩
  | succ n ih =>
    refine hr.bind fun a ha => ih.bind fun l hl => yields_pure ?_
    obtain ⟨hlength, hall⟩ := hl
    exact ⟨congrArg (· + 1) hlength, List.forall_mem_cons.2 ⟨ha, hall⟩⟩

end Reader

open Reader

theorem ofLittleEndian_lt (bytes : List UInt8) : ofLittleEndian bytes < capacity bytes.length := by
  induction bytes with
  | nil => exact Nat.one_pos
  | cons b rest ih =>
    have hb := b.toNat_lt
    rw [ofLittleEndian, List.length_cons, capacity]
    omega

theorem yields_unsigned (width : Nat) : (unsigned width).Yields fun n => n < capacity width := by
  refine (yields_take width).bind fun bytes hbytes => yields_pure ?_
  exact hbytes ▸ ofLittleEndian_lt bytes

/-! ## Counts that fit -/

/-- A type whose values have counts that fit when they come from bytes. -/
class Sized (α : Type) [Form α] : Prop where
  yields : (Form.reader : Reader α).Yields Form.Fits

instance : Sized Int64 := ⟨yields_any _⟩

instance : Sized Char := ⟨yields_any _⟩

instance : Sized StateId := ⟨yields_any _⟩

instance : Sized State := ⟨yields_any _⟩

/-- A text is as long as the count before it says. -/
instance : Sized String where
  yields := by
    refine (yields_unsigned 8).bind fun size hsize => (yields_take size).bind fun bytes hbytes => ?_
    refine yields_ofOption fun s hs => ?_
    rw [String.fromUTF8?] at hs
    split at hs
    · next hvalid =>
      obtain rfl := Option.some.inj hs
      have hlength : (String.fromUTF8 bytes.toByteArray hvalid).utf8ByteSize = bytes.length := by
        simp [String.utf8ByteSize, String.fromUTF8]
      show _ < _
      rw [hlength, hbytes]
      exact hsize
    · exact nomatch hs

instance {α : Type} [Form α] [Sized α] : Sized (List α) where
  yields := by
    refine (yields_unsigned 8).bind fun size hsize => ?_
    intro bytes rest l hrun
    obtain ⟨hlength, hall⟩ := Sized.yields.times size bytes rest l hrun
    exact ⟨hlength ▸ hsize, hall⟩

instance {α : Type} [Form α] [Sized α] : Sized (Rule α) where
  yields :=
    (yields_any _).bind fun _ _ => Sized.yields.bind fun _ hsymbol =>
      (yields_any _).bind fun _ _ => yields_pure hsymbol

instance {α : Type} [Form α] [Sized α] : Sized (Snapshot α) where
  yields :=
    (yields_any _).bind fun _ _ => (yields_any _).bind fun _ _ => (yields_any _).bind fun _ _ =>
      (yields_any _).bind fun _ _ => Sized.yields.bind fun _ hstates =>
        (yields_any _).bind fun _ _ => Sized.yields.bind fun _ hfinals =>
          Sized.yields.bind fun _ halphabet => Sized.yields.bind fun _ hrules =>
            yields_pure ⟨hstates, hfinals, halphabet, hrules⟩

theorem Form.fits_of_ofBytes? {α : Type} [Form α] [Sized α] {bytes : List UInt8} {a : α}
    (h : Form.ofBytes? bytes = some a) : Form.Fits a := by
  obtain ⟨⟨b, rest⟩, hrun, rfl⟩ := Option.map_eq_some_iff.1 h
  exact Sized.yields bytes rest b hrun

/-- Of two values whose forms are read back, neither form begins with the other. -/
theorem Form.eq_of_encode_prefix {α : Type} [Form α] {a b : α} (ha : Form.Fits a)
    (hb : Form.Fits b) (h : Form.encode a <+: Form.encode b) : a = b := by
  obtain ⟨rest, hrest⟩ := h
  have hfirst := Form.ofBytes?_append ha rest
  have hsecond := Form.ofBytes?_append hb []
  rw [List.append_nil, ← hrest, hfirst] at hsecond
  exact Option.some.inj hsecond

end Binary

namespace Snapshot

variable {α : Type}

/-! ## Snapshots as bytes -/

/-- The counts of a snapshot are those of its lists and those within its symbols. -/
theorem fits_iff [Binary.Form α] {s : Snapshot α} : Binary.Form.Fits s ↔
    (s.states.length < Binary.countLimit ∧ s.finals.length < Binary.countLimit ∧
      s.alphabet.length < Binary.countLimit ∧ s.rules.length < Binary.countLimit) ∧
    (∀ x ∈ s.alphabet, Binary.Form.Fits x) ∧ ∀ r ∈ s.rules, Binary.Form.Fits r.symbol := by
  refine ⟨?_, ?_⟩
  · rintro ⟨⟨hstates, _⟩, ⟨hfinals, _⟩, ⟨halphabet, hsymbols⟩, ⟨hrules, hpayloads⟩⟩
    exact ⟨⟨hstates, hfinals, halphabet, hrules⟩, hsymbols, hpayloads⟩
  · rintro ⟨⟨hstates, hfinals, halphabet, hrules⟩, hsymbols, hpayloads⟩
    exact ⟨⟨hstates, fun _ _ => trivial⟩, ⟨hfinals, fun _ _ => trivial⟩, ⟨halphabet, hsymbols⟩,
      ⟨hrules, hpayloads⟩⟩

/-- A snapshot is read back from its bytes, whatever follows them, exactly when its counts fit; and
then nothing is read from its bytes cut short, and the bytes of no other such snapshot are a
beginning of them. Whatever bytes write has counts that fit. -/
theorem bytes_self_delimiting [Binary.Form α] [Binary.Sized α] (s : Snapshot α) :
    (Binary.Form.Fits s ↔ ∀ rest, ofBinary? (s.toBinary ++ rest) = some s) ∧
    (Binary.Form.Fits s → ∀ cut, cut <+: s.toBinary → cut ≠ s.toBinary →
      ofBinary? (α := α) cut = none) ∧
    (Binary.Form.Fits s → ∀ t : Snapshot α, Binary.Form.Fits t → t.toBinary <+: s.toBinary →
      t = s) ∧
    (∀ bytes, ofBinary? bytes = some s → Binary.Form.Fits s) := by
  refine ⟨⟨ofBinary?_toBinary, fun h => Binary.Form.fits_of_ofBytes? (h [])⟩, ?_, ?_, ?_⟩
  · intro fits cut hcut hne
    obtain ⟨more, hmore⟩ := hcut
    have hrest : more ≠ [] := by
      rintro rfl
      exact hne (by rw [← hmore, List.append_nil])
    have hrun := Binary.Form.run_eq_none_of_proper fits hmore.symm hrest
    show Option.map _ _ = none
    rw [hrun, Option.map_none]
  · intro fits t ht hprefix
    exact Binary.Form.eq_of_encode_prefix ht fits hprefix
  · intro bytes h
    exact Binary.Form.fits_of_ofBytes? h

/-- A snapshot over each alphabet, none of an automaton's making: characters and texts of several
bytes and none, the least and the greatest numbers, states and symbols twice. Each is read back with
a byte after it, and from no fewer of its bytes. -/
theorem bytes_self_delimiting_of_each_alphabet :
    let id : Uuid := ⟨List.replicate 16 7, rfl⟩
    let takenAt : Instant :=
      ⟨⟨2024, 2, 29, by decide, by decide, by decide⟩, 0, 5, by decide, by decide, by decide⟩
    let last : State := ⟨⟨18446744073709551615⟩, some ⟨0⟩⟩
    let s : Snapshot Char := ⟨7, id, takenAt, .allow, [last, last], ⟨5⟩, [⟨9⟩], ['𝄞', 'a', '𝄞'],
      [⟨last, 'é', ⟨⟨1⟩, none⟩⟩]⟩
    let t : Snapshot String := ⟨0, id, takenAt, .reject, [], ⟨0⟩, [⟨2⟩, ⟨2⟩], ["", "𝄞é"],
      [⟨⟨⟨1⟩, none⟩, "\"\\", last⟩]⟩
    let u : Snapshot Int64 := ⟨1, id, takenAt, .allow, [⟨⟨3⟩, some ⟨3⟩⟩], ⟨3⟩, [], [],
      [⟨last, -9223372036854775808, last⟩, ⟨last, 9223372036854775807, last⟩]⟩
    (ofBinary? (s.toBinary ++ [1]) = some s ∧ ofBinary? (t.toBinary ++ [1]) = some t ∧
      ofBinary? (u.toBinary ++ [1]) = some u) ∧
    (∀ n < s.toBinary.length, ofBinary? (α := Char) (s.toBinary.take n) = none) ∧
    (∀ n < t.toBinary.length, ofBinary? (α := String) (t.toBinary.take n) = none) ∧
    (∀ n < u.toBinary.length, ofBinary? (α := Int64) (u.toBinary.take n) = none) ∧
    (∀ v : Snapshot String, Binary.Form.Fits v → v.toBinary <+: t.toBinary → v = t) := by
  intro id takenAt last s t u
  have hs : Binary.Form.Fits s := fits_iff.2 ⟨by decide, fun _ _ => trivial, fun _ _ => trivial⟩
  have symbols : ∀ x ∈ t.alphabet, x.utf8ByteSize < Binary.countLimit := by
    show ∀ x ∈ ["", "𝄞é"], _
    decide
  have payload : "\"\\".utf8ByteSize < Binary.countLimit := by decide
  have ht : Binary.Form.Fits t :=
    fits_iff.2 ⟨by decide, symbols, List.forall_mem_singleton.2 payload⟩
  have hu : Binary.Form.Fits u := fits_iff.2 ⟨by decide, fun _ _ => trivial, fun _ _ => trivial⟩
  obtain ⟨hsback, hscut, _⟩ := bytes_self_delimiting s
  obtain ⟨htback, htcut, htonly, _⟩ := bytes_self_delimiting t
  obtain ⟨huback, hucut, _⟩ := bytes_self_delimiting u
  have short {bytes : List UInt8} {n : Nat} (h : n < bytes.length) : bytes.take n ≠ bytes := by
    rw [ne_eq, List.take_eq_self_iff]
    omega
  refine ⟨⟨hsback.1 hs _, htback.1 ht _, huback.1 hu _⟩, ?_, ?_, ?_, htonly ht⟩
  · exact fun n hn => hscut hs _ (List.take_prefix n _) (short hn)
  · exact fun n hn => htcut ht _ (List.take_prefix n _) (short hn)
  · exact fun n hn => hucut hu _ (List.take_prefix n _) (short hn)

/-! ## Snapshots as texts -/

/-- A snapshot is read back from its text. So no two snapshots have one text, and what is read from
any text, however that spells it, has one text from then on. -/
theorem text_read_back [Json.Form α] [Json.ExactForm α] :
    (∀ s : Snapshot α, ofJson? s.toJson = some s) ∧
    (∀ s t : Snapshot α, s.toJson = t.toJson → s = t) ∧
    (∀ text, ∀ s : Snapshot α, ofJson? text = some s →
      ∃ t, ofJson? s.toJson = some t ∧ t = s ∧ t.toJson = s.toJson) := by
  refine ⟨ofJson?_toJson, ?_, ?_⟩
  · intro s t h
    have hs := ofJson?_toJson s
    rw [h, ofJson?_toJson t] at hs
    exact (Option.some.inj hs).symm
  · intro text s _
    exact ⟨s, ofJson?_toJson s, rfl, rfl⟩

/-- Symbols that need escapes or several bytes, and the least and the greatest numbers, are read
back from the text of a snapshot over each alphabet; one of them is read from another spelling
too. -/
theorem text_read_back_of_each_alphabet :
    let id : Uuid := ⟨List.replicate 16 7, rfl⟩
    let takenAt : Instant :=
      ⟨⟨2024, 2, 29, by decide, by decide, by decide⟩, 0, 5, by decide, by decide, by decide⟩
    let last : State := ⟨⟨18446744073709551615⟩, some ⟨0⟩⟩
    let s : Snapshot Char := ⟨7, id, takenAt, .allow, [last, last], ⟨5⟩, [⟨9⟩], ['𝄞', '"', '\n'],
      [⟨last, '\\', ⟨⟨1⟩, none⟩⟩]⟩
    let t : Snapshot String := ⟨0, id, takenAt, .reject, [], ⟨0⟩, [⟨2⟩, ⟨2⟩], ["", "𝄞é\x00"],
      [⟨⟨⟨1⟩, none⟩, "\"\\", last⟩]⟩
    let u : Snapshot Int64 := ⟨1, id, takenAt, .allow, [⟨⟨3⟩, some ⟨3⟩⟩], ⟨3⟩, [], [],
      [⟨last, -9223372036854775808, last⟩, ⟨last, 9223372036854775807, last⟩]⟩
    let line : String := Json.Form.text .compact t
    ofJson? s.toJson = some s ∧ ofJson? t.toJson = some t ∧ ofJson? u.toJson = some u ∧
      ofJson? line = some t ∧ ∃ v, ofJson? t.toJson = some v ∧ v = t ∧ v.toJson = t.toJson := by
  intro id takenAt last s t u line
  have hline : ofJson? line = some t :=
    Json.Form.ofText?_text_of_exact Json.Layout.blank_compact t
  obtain ⟨hchar, _⟩ := text_read_back (α := Char)
  obtain ⟨hstring, _, hspelling⟩ := text_read_back (α := String)
  obtain ⟨hint, _⟩ := text_read_back (α := Int64)
  exact ⟨hchar s, hstring t, hint u, hline, hspelling line t hline⟩

end Snapshot

end Acceptor
