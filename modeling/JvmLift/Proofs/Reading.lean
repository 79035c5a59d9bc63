import Mathlib
import JvmLift.Bytecode.Decode

/-!
# Contracts of readers

A reader that succeeds has moved the cursor over some bytes and left the rest of it alone. Its contract says which bytes
these are: at a position, bytes spell a result. Since a contract holds in both directions, it tells what was read from
the result, and also that bytes which spell a result are read as that result, whatever follows them. There is one rule
for each way to put readers together.
-/

namespace JvmLift.Bytecode

namespace Cursor

/-- The cursor behind the next `n` bytes. -/
def skip (n : Nat) (c : Cursor) : Cursor :=
  { c with position := c.position + n, unread := c.unread.drop n }

@[simp] lemma position_skip (n : Nat) (c : Cursor) : (c.skip n).position = c.position + n := rfl

@[simp] lemma unread_skip (n : Nat) (c : Cursor) : (c.skip n).unread = c.unread.drop n := rfl

@[simp] lemma start_skip (n : Nat) (c : Cursor) : (c.skip n).start = c.start := rfl

@[simp] lemma skip_zero (c : Cursor) : c.skip 0 = c := rfl

@[simp] lemma skip_skip (m n : Nat) (c : Cursor) : (c.skip m).skip n = c.skip (m + n) := by
  simp [skip, Nat.add_assoc]

@[simp] lemma start_mark (c : Cursor) : c.mark.start = c.position := rfl

@[simp] lemma position_mark (c : Cursor) : c.mark.position = c.position := rfl

@[simp] lemma unread_mark (c : Cursor) : c.mark.unread = c.unread := rfl

end Cursor

variable {α β : Type} {offset : Nat} {p : Read α} {f : α → Read β}

/-- Which bytes spell which values, by the position of the first byte. -/
abbrev Spelling (α : Type) : Type :=
  Nat → List UInt8 → α → Prop

/-- A reader moves over exactly the bytes that spell its result. When it fails in the instruction at `offset`, the error
is about that instruction. -/
structure Reads (offset : Nat) (p : Read α) (spells : Spelling α) : Prop where
  ok_iff : ∀ {c a c'}, p c = .ok (a, c') ↔
    ∃ bytes, bytes <+: c.unread ∧ c' = c.skip bytes.length ∧ spells c.position bytes a
  offset_of_error : ∀ {c e}, c.start = offset → p c = .error e → e.offset = offset

variable {spells : Spelling α} {spells' : α → Spelling β}

lemma bind_eq_ok {c c' : Cursor} {b : β} :
    (p >>= f) c = .ok (b, c') ↔ ∃ a c₁, p c = .ok (a, c₁) ∧ f a c₁ = .ok (b, c') := by
  simp only [bind, StateT.bind, Except.bind]
  cases p c with
  | error e => simp
  | ok r =>
    obtain ⟨a, c₁⟩ := r
    simp

lemma bind_eq_error {c : Cursor} {e : DecodeError} :
    (p >>= f) c = .error e ↔ p c = .error e ∨ ∃ a c₁, p c = .ok (a, c₁) ∧ f a c₁ = .error e := by
  simp only [bind, StateT.bind, Except.bind]
  cases p c with
  | error e' => simp
  | ok r =>
    obtain ⟨a, c₁⟩ := r
    simp

namespace Reads

protected lemma pure (a : α) : Reads offset (pure a) fun _ bytes b => bytes = [] ∧ b = a where
  ok_iff {c b c'} := by
    have hpure : (pure a : Read α) c = .ok (a, c) := rfl
    rw [hpure]
    constructor
    · rintro ⟨⟩
      exact ⟨[], List.nil_prefix, rfl, rfl, rfl⟩
    · rintro ⟨_, -, rfl, rfl, rfl⟩
      rfl
  offset_of_error _ h := nomatch h

/-- A reader that always fails, where no bytes spell anything. -/
protected lemma throw {e : DecodeError} (he : e.offset = offset)
    (hnone : ∀ position bytes a, ¬ spells position bytes a) : Reads offset (throw e) spells where
  ok_iff {c a c'} := by
    have hthrow : (throw e : Read α) c = .error e := rfl
    simp [hthrow, hnone]
  offset_of_error _ h := by
    cases h
    exact he

/-- The bytes of two readers stand one behind the other. The second reader is only asked about results of the first. -/
protected lemma bind (hp : Reads offset p spells)
    (hf : ∀ {position bytes a}, spells position bytes a → Reads offset (f a) (spells' a)) :
    Reads offset (p >>= f) fun position bytes b =>
      ∃ front a back, bytes = front ++ back ∧ spells position front a ∧
        spells' a (position + front.length) back b where
  ok_iff {c b c'} := by
    rw [bind_eq_ok]
    constructor
    · rintro ⟨a, c₁, ha, hb⟩
      obtain ⟨front, hfront, rfl, hspells⟩ := hp.ok_iff.mp ha
      obtain ⟨back, hback, rfl, hspells'⟩ := (hf hspells).ok_iff.mp hb
      refine ⟨front ++ back, ?_, ?_, front, a, back, rfl, hspells, hspells'⟩
      · obtain ⟨rest, hrest⟩ := hfront
        simpa [← hrest] using hback
      · simp
    · rintro ⟨_, hprefix, rfl, front, a, back, rfl, hspells, hspells'⟩
      obtain ⟨rest, hrest⟩ := hprefix
      refine ⟨a, c.skip front.length, hp.ok_iff.mpr ⟨front, ?_, rfl, hspells⟩,
        (hf hspells).ok_iff.mpr ⟨back, ?_, ?_, hspells'⟩⟩
      · exact ⟨back ++ rest, by simpa using hrest⟩
      · simp [← hrest]
      · simp
  offset_of_error {c e} hstart h := by
    rcases bind_eq_error.mp h with h | ⟨a, c₁, ha, h⟩
    · exact hp.offset_of_error hstart h
    · obtain ⟨front, -, rfl, hspells⟩ := hp.ok_iff.mp ha
      exact (hf hspells).offset_of_error (c := c.skip front.length) hstart h

/-- A reader whose result is changed. -/
protected lemma map (g : α → β) (hp : Reads offset p spells) :
    Reads offset (p >>= fun a => Pure.pure (g a)) fun position bytes b =>
      ∃ a, spells position bytes a ∧ b = g a where
  ok_iff {c b c'} := by
    rw [(hp.bind fun _ => Reads.pure (g _)).ok_iff]
    constructor
    · rintro ⟨_, hprefix, rfl, front, a, _, rfl, hspells, rfl, rfl⟩
      rw [List.append_nil] at hprefix ⊢
      exact ⟨front, hprefix, rfl, a, hspells, rfl⟩
    · rintro ⟨bytes, hprefix, rfl, a, hspells, rfl⟩
      exact ⟨bytes, hprefix, rfl, bytes, a, [], (List.append_nil bytes).symm, hspells, rfl, rfl⟩
  offset_of_error := (hp.bind fun _ => Reads.pure (g _)).offset_of_error

/-- A reader may look at its position. -/
protected lemma position {g : Nat → Read α} {spells : Nat → Spelling α} (hg : ∀ n, Reads offset (g n) (spells n)) :
    Reads offset (get >>= fun c => g c.position) fun position => spells position position where
  ok_iff {c _ _} := (hg c.position).ok_iff
  offset_of_error {c _} := (hg c.position).offset_of_error

/-- A contract may be told in other words. -/
protected lemma congr {spells₂ : Spelling α} (hp : Reads offset p spells)
    (h : ∀ position bytes a, spells position bytes a ↔ spells₂ position bytes a) : Reads offset p spells₂ where
  ok_iff {c a c'} := by
    rw [hp.ok_iff]
    simp only [h]
  offset_of_error := hp.offset_of_error

protected lemma take (n : Nat) :
    Reads offset (Cursor.take n) fun _ bytes taken => bytes.length = n ∧ taken = bytes where
  ok_iff {c taken c'} := by
    rw [Cursor.take]
    split
    case isTrue hlen =>
      constructor
      · rintro ⟨⟩
        exact ⟨c.unread.take n, List.take_prefix n c.unread, by rw [hlen]; rfl, hlen, rfl⟩
      · rintro ⟨bytes, ⟨rest, hrest⟩, rfl, rfl, rfl⟩
        simp [← hrest, Cursor.skip]
    case isFalse hlen =>
      simp only [reduceCtorEq, false_iff]
      rintro ⟨bytes, ⟨rest, hrest⟩, -, rfl, -⟩
      simp [← hrest] at hlen
  offset_of_error {c e} hstart h := by
    rw [Cursor.take] at h
    split at h
    · cases h
    · cases h
      exact hstart

end Reads

end JvmLift.Bytecode
