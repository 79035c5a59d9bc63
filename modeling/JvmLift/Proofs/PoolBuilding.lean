import Mathlib
import JvmLift.Pool

/-!
# Building pools

Entries are appended behind the last slot. While indices last, a table only grows: what it holds stays where it is, so
every look-up that has succeeded gives the same answer again, however many references it follows. The slot behind a wide
entry is taken by nobody. When there are more slots than indices, the next index wraps around, and nothing of this holds.
-/

namespace JvmLift.Pool

/-! ### Ways to add an entry -/

/-- A way to append an entry to a table, with all that it refers to. -/
inductive Addition
  | entry (entry : PoolEntry)
  | utf8 (text : String)
  | classRef (name : String)
  | string (text : String)
  | nameAndType (name descriptor : String)
  | member (kind : MemberKind) (member : Member)

namespace Addition

/-- The index of the new entry, and the table with it. -/
def run : Addition → Pool → UInt16 × Pool
  | entry e, p => p.push e
  | utf8 text, p => p.addUtf8 text
  | classRef name, p => p.addClass name
  | string text, p => p.addString text
  | nameAndType name descriptor, p => p.addNameAndType name descriptor
  | member kind m, p => p.addMember kind m

/-- The tables to which the entries are appended one by one, each as it is just before. -/
def stages : Addition → Pool → List Pool
  | entry _, p | utf8 _, p => [p]
  | classRef text, p | string text, p => [p, (p.addUtf8 text).2]
  | nameAndType name descriptor, p => [p, (p.addUtf8 name).2, ((p.addUtf8 name).2.addUtf8 descriptor).2]
  | member _ m, p =>
    let p₂ := (p.addClass m.owner).2
    let p₃ := (p₂.addUtf8 m.name).2
    [p, (p.addUtf8 m.owner).2, p₂, p₃, (p₃.addUtf8 m.descriptor).2, (p₂.addNameAndType m.name m.descriptor).2]

/-- Whether each entry is appended while there is an index for it. -/
def HasRoom (a : Addition) (p : Pool) : Prop :=
  ∀ q ∈ a.stages p, q.slots.length ≤ 65535

instance (a : Addition) (p : Pool) : Decidable (a.HasRoom p) :=
  inferInstanceAs (Decidable (∀ q ∈ a.stages p, q.slots.length ≤ 65535))

/-- The table behind additions one after the other. -/
def runAll : List Addition → Pool → Pool
  | [], p => p
  | a :: rest, p => runAll rest (a.run p).2

/-- Whether there is room for additions one after the other. -/
def HaveRoom : List Addition → Pool → Prop
  | [], _ => True
  | a :: rest, p => a.HasRoom p ∧ HaveRoom rest (a.run p).2

instance decidableHaveRoom : (later : List Addition) → (p : Pool) → Decidable (HaveRoom later p)
  | [], _ => .isTrue trivial
  | a :: rest, p =>
    have := decidableHaveRoom rest (a.run p).2
    inferInstanceAs (Decidable (a.HasRoom p ∧ HaveRoom rest (a.run p).2))

end Addition

variable {p q : Pool} {e : PoolEntry} {i : UInt16}

/-! ### Appending one entry -/

lemma toNat_nextIndex (h : p.slots.length ≤ 65535) : p.nextIndex.toNat = max p.slots.length 1 := by
  rw [nextIndex, UInt16.toNat_ofNat']
  omega

/-- The first entry of a table without slots leaves out the index `0`, and a wide one leaves an empty slot behind it. -/
lemma slots_push (h : p.slots.length ≤ 65535) (e : PoolEntry) :
    (p.push e).2.slots = p.slots ++ List.replicate (1 - p.slots.length) none ++
      some e :: List.replicate (e.width - 1) none := by
  have hwidth : e.width = 1 ∨ e.width = 2 := by cases e <;> simp [PoolEntry.width]
  simp only [push, insert, toNat_nextIndex h]
  rcases hslots : p.slots with _ | ⟨s, slots⟩
  · rcases hwidth with hw | hw <;> simp [hw]
  · rcases hwidth with hw | hw <;> simp [hw]

/-- What becomes of a table when entries are appended: the slots stay, and the new index is behind them. -/
structure Added (p : Pool) (result : UInt16 × Pool) : Prop where
  kept : p.slots <+: result.2.slots
  fresh : max p.slots.length 1 ≤ result.1.toNat

lemma added_push (h : p.slots.length ≤ 65535) (e : PoolEntry) : Added p (p.push e) := by
  constructor
  · rw [slots_push h, List.append_assoc]
    exact List.prefix_append _ _
  · exact (toNat_nextIndex h).ge

lemma Added.trans {r r' : UInt16 × Pool} (h : Added p r) (h' : Added r.2 r') : Added p r' :=
  ⟨h.kept.trans h'.kept, (max_le_max_right 1 h.kept.length_le).trans h'.fresh⟩

/-- The index of a new entry, counted from the slots before it. -/
lemma toNat_push (h : p.slots.length ≤ 65535) (e : PoolEntry) :
    (p.push e).1.toNat = p.slots.length + (1 - p.slots.length) := by
  rw [push, toNat_nextIndex h]
  omega

lemma entry?_push (h : p.slots.length ≤ 65535) (e : PoolEntry) : entry? (p.push e).2 (p.push e).1 = some e := by
  unfold entry?
  simp [slots_push h, toNat_push h]

/-! ### Look-ups -/

lemma getElem?_of_kept (h : p.slots <+: q.slots) {k : Nat} (hk : k < p.slots.length) : q.slots[k]? = p.slots[k]? := by
  obtain ⟨rest, hrest⟩ := h
  rw [← hrest, List.getElem?_append_left hk]

lemma entry?_of_kept (h : p.slots <+: q.slots) (hi : p.entry? i = some e) : q.entry? i = some e := by
  unfold entry? at hi ⊢
  rw [Option.join_eq_some_iff] at hi
  have hlt : i.toNat < p.slots.length := (List.getElem?_eq_some_iff.mp hi).1
  rw [getElem?_of_kept h hlt, hi, Option.join_some]

lemma utf8?_of_kept (h : p.slots <+: q.slots) {text : String} (hi : p.utf8? i = some text) :
    q.utf8? i = some text := by
  unfold utf8? at hi ⊢
  split at hi
  · next hentry =>
    rw [entry?_of_kept h hentry]
    exact hi
  · cases hi

lemma className?_of_kept (h : p.slots <+: q.slots) {name : String} (hi : p.className? i = some name) :
    q.className? i = some name := by
  unfold className? at hi ⊢
  split at hi
  · next hentry =>
    rw [entry?_of_kept h hentry]
    exact utf8?_of_kept h hi
  · cases hi

lemma constant?_of_kept (h : p.slots <+: q.slots) {constant : Constant} (hi : p.constant? i = some constant) :
    q.constant? i = some constant := by
  unfold constant? at hi ⊢
  split at hi
  case h_1 | h_2 | h_3 | h_4 =>
    rename_i hentry
    rw [entry?_of_kept h hentry]
    exact hi
  case h_5 | h_6 =>
    rename_i hentry
    obtain ⟨text, htext, hi⟩ := Option.map_eq_some_iff.mp hi
    rw [entry?_of_kept h hentry]
    exact Option.map_eq_some_iff.mpr ⟨text, utf8?_of_kept h htext, hi⟩
  case h_7 => cases hi

lemma nameAndType?_of_kept (h : p.slots <+: q.slots) {nt : String × String} (hi : p.nameAndType? i = some nt) :
    q.nameAndType? i = some nt := by
  unfold nameAndType? at hi ⊢
  split at hi
  · next hentry =>
    simp only [bind, Option.bind_eq_some_iff] at hi
    obtain ⟨name, hname, descriptor, hdescriptor, hi⟩ := hi
    simp only [entry?_of_kept h hentry, utf8?_of_kept h hname, utf8?_of_kept h hdescriptor]
    exact hi
  · cases hi

lemma member?_of_kept (h : p.slots <+: q.slots) {m : Member} (hi : p.member? i = some m) : q.member? i = some m := by
  unfold member? at hi ⊢
  split at hi
  · next hentry =>
    simp only [bind, Option.bind_eq_some_iff] at hi
    obtain ⟨⟨name, descriptor⟩, hnt, owner, howner, hi⟩ := hi
    simp only [entry?_of_kept h hentry, nameAndType?_of_kept h hnt, className?_of_kept h howner]
    exact hi
  · cases hi

/-! ### Appending entries that refer to each other -/

lemma utf8?_addUtf8 (h : p.slots.length ≤ 65535) (text : String) :
    (p.addUtf8 text).2.utf8? (p.addUtf8 text).1 = some text := by
  rw [utf8?, addUtf8, entry?_push h]

/-- Two entries, the second one with a reference to the first one. -/
lemma added_push_push {e' : PoolEntry} (h : p.slots.length ≤ 65535) (h' : (p.push e).2.slots.length ≤ 65535) :
    Added p ((p.push e).2.push e') :=
  (added_push h e).trans (added_push h' e')

namespace Addition

variable {a : Addition} {name descriptor text : String}

lemma hasRoom_classRef : (classRef name).HasRoom p ↔
    p.slots.length ≤ 65535 ∧ (p.addUtf8 name).2.slots.length ≤ 65535 := by
  simp [HasRoom, stages]

lemma hasRoom_nameAndType : (nameAndType name descriptor).HasRoom p ↔
    p.slots.length ≤ 65535 ∧ (p.addUtf8 name).2.slots.length ≤ 65535 ∧
      ((p.addUtf8 name).2.addUtf8 descriptor).2.slots.length ≤ 65535 := by
  simp [HasRoom, stages]

lemma hasRoom_member {kind : MemberKind} {m : Member} : (member kind m).HasRoom p ↔
    (classRef m.owner).HasRoom p ∧ (nameAndType m.name m.descriptor).HasRoom (p.addClass m.owner).2 ∧
      ((p.addClass m.owner).2.addNameAndType m.name m.descriptor).2.slots.length ≤ 65535 := by
  simp [HasRoom, stages, and_assoc]

lemma added_classRef (h : (classRef name).HasRoom p) : Added p (p.addClass name) :=
  added_push_push (hasRoom_classRef.mp h).1 (hasRoom_classRef.mp h).2

lemma added_nameAndType (h : (nameAndType name descriptor).HasRoom p) : Added p (p.addNameAndType name descriptor) := by
  obtain ⟨h₀, h₁, h₂⟩ := hasRoom_nameAndType.mp h
  exact (added_push h₀ _).trans (added_push_push h₁ h₂)

/-- **One addition.** -/
lemma added (h : a.HasRoom p) : Added p (a.run p) := by
  cases a with
  | entry e | utf8 text => exact added_push (h p (by simp [stages])) _
  | classRef text => exact added_classRef h
  | string text =>
    obtain ⟨h₀, h₁⟩ : p.slots.length ≤ 65535 ∧ (p.addUtf8 text).2.slots.length ≤ 65535 := by
      simpa [HasRoom, stages] using h
    exact added_push_push h₀ h₁
  | nameAndType name descriptor => exact added_nameAndType h
  | member kind m =>
    obtain ⟨hclass, hnamed, hlast⟩ := hasRoom_member.mp h
    exact ((added_classRef hclass).trans (added_nameAndType hnamed)).trans (added_push hlast _)

/-- **Additions one after the other.** -/
lemma kept_runAll {later : List Addition} (h : HaveRoom later p) : p.slots <+: (runAll later p).slots := by
  induction later generalizing p with
  | nil => exact List.prefix_refl _
  | cons a later ih => exact (added h.1).kept.trans (ih h.2)

lemma className?_classRef (h : (classRef name).HasRoom p) :
    (p.addClass name).2.className? (p.addClass name).1 = some name := by
  obtain ⟨h₀, h₁⟩ := hasRoom_classRef.mp h
  rw [className?, addClass, entry?_push h₁]
  exact utf8?_of_kept (added_push h₁ _).kept (utf8?_addUtf8 h₀ name)

lemma nameAndType?_nameAndType (h : (nameAndType name descriptor).HasRoom p) :
    (p.addNameAndType name descriptor).2.nameAndType? (p.addNameAndType name descriptor).1 =
      some (name, descriptor) := by
  obtain ⟨h₀, h₁, h₂⟩ := hasRoom_nameAndType.mp h
  have hkept := (added_push h₂ (.nameAndType (p.addUtf8 name).1 ((p.addUtf8 name).2.addUtf8 descriptor).1)).kept
  have hname := utf8?_of_kept ((added_push h₁ (.utf8 descriptor)).kept.trans hkept) (utf8?_addUtf8 h₀ name)
  have hdescriptor := utf8?_of_kept hkept (utf8?_addUtf8 h₁ descriptor)
  simp only [nameAndType?, addNameAndType, entry?_push h₂]
  rw [hname, hdescriptor]
  rfl

/-- A new member is found at its index. -/
lemma member?_member {kind : MemberKind} {m : Member} (h : (member kind m).HasRoom p) :
    (p.addMember kind m).2.member? (p.addMember kind m).1 = some m := by
  obtain ⟨hclass, hnamed, hlast⟩ := hasRoom_member.mp h
  let p₂ := p.addClass m.owner
  let p₅ := p₂.2.addNameAndType m.name m.descriptor
  have hkept : p₅.2.slots <+: (p₅.2.push (.member kind p₂.1 p₅.1)).2.slots := (added_push hlast _).kept
  have hnt := nameAndType?_of_kept hkept (nameAndType?_nameAndType hnamed)
  have howner := className?_of_kept ((added_nameAndType hnamed).kept.trans hkept) (className?_classRef hclass)
  simp only [member?, addMember, entry?_push hlast]
  rw [hnt]
  simp only [bind, Option.bind_some]
  rw [howner]
  rfl

end Addition

/-! ### Main statement -/

/-- What a table holds is still there in another one: each index with a slot has the same entry, or still none, and what
is found through references is found again. -/
structure Keeps (p q : Pool) : Prop where
  entry : ∀ i : UInt16, i.toNat < p.slots.length → q.entry? i = p.entry? i
  utf8 : ∀ i text, p.utf8? i = some text → q.utf8? i = some text
  className : ∀ i name, p.className? i = some name → q.className? i = some name
  constant : ∀ i constant, p.constant? i = some constant → q.constant? i = some constant
  member : ∀ i member, p.member? i = some member → q.member? i = some member

lemma keeps_of_kept (h : p.slots <+: q.slots) : p.Keeps q where
  entry i hi := by
    unfold entry?
    rw [getElem?_of_kept h hi]
  utf8 _ _ := utf8?_of_kept h
  className _ _ := className?_of_kept h
  constant _ _ := constant?_of_kept h
  member _ _ := member?_of_kept h

/-- A wide entry is followed by an empty slot. -/
lemma getElem?_push_wide (h : p.slots.length ≤ 65535) (hwide : e.width = 2) :
    (p.push e).2.slots[(p.push e).1.toNat + 1]? = some none := by
  rw [toNat_push h, slots_push h, List.getElem?_append_right (by simp)]
  simp [hwide]

/-- **Building a pool never disturbs it.** Take any table, however it was built, and an addition for which there is
room. The new index is not `0`, and there was no entry at it. All that the table held before is still there. If the new
entry is a `long` or a `double`, the slot behind it is empty, and stays empty under any further additions for which
there is room. A new member is found at its index. -/
theorem addition_keeps_pool (p : Pool) (a : Addition) (hroom : a.HasRoom p) :
    (1 ≤ (a.run p).1 ∧ p.entry? (a.run p).1 = none) ∧
    p.Keeps (a.run p).2 ∧
    (∀ e, a = .entry e → (∃ n, e = .long n) ∨ (∃ x, e = .double x) →
      ∀ later, Addition.HaveRoom later (a.run p).2 →
        (Addition.runAll later (a.run p).2).slots[(a.run p).1.toNat + 1]? = some none) ∧
    (∀ kind member, a = .member kind member → (a.run p).2.member? (a.run p).1 = some member) := by
  have hadded := Addition.added hroom
  refine ⟨⟨?_, ?_⟩, keeps_of_kept hadded.kept, ?_, ?_⟩
  · exact UInt16.le_iff_toNat_le.mpr (le_of_max_le_right hadded.fresh)
  · unfold entry?
    rw [List.getElem?_eq_none (le_of_max_le_left hadded.fresh), Option.join_none]
  · rintro e rfl hwide later hlater
    have hslot : ((Addition.entry e).run p).2.slots[((Addition.entry e).run p).1.toNat + 1]? = some none :=
      getElem?_push_wide (hroom p (by simp [Addition.stages])) (by rcases hwide with ⟨_, rfl⟩ | ⟨_, rfl⟩ <;> rfl)
    rw [getElem?_of_kept (Addition.kept_runAll hlater) (List.getElem?_eq_some_iff.mp hslot).1, hslot]
  · rintro kind member rfl
    exact Addition.member?_member hroom

/-- The theorem at a table without the index `0` whose only entry was put at 3: a `long` is appended, and then a method. -/
theorem long_and_method_keep_pool :
    let p := Pool.empty.insert 3 (.utf8 "x")
    let long := Addition.entry (.long 7)
    let p' := (long.run p).2
    let method := Addition.member .method ⟨"A", "f", "()V"⟩
    long.HasRoom p ∧ Addition.HaveRoom [method] p' ∧ (long.run p).1 = 4 ∧ p.entry? 4 = none ∧ p.Keeps p' ∧
    p'.Keeps (method.run p').2 ∧ (method.run p').2.slots[5]? = some none ∧
    (method.run p').2.member? (method.run p').1 = some ⟨"A", "f", "()V"⟩ := by
  intro p long p' method
  have hlong : long.HasRoom p := by decide
  have hmethod : Addition.HaveRoom [method] p' := by decide
  have hindex : (long.run p).1 = 4 := by decide
  obtain ⟨⟨-, hfresh⟩, hkeeps, hwide, -⟩ := addition_keeps_pool p long hlong
  obtain ⟨-, hkeeps', -, hfound⟩ := addition_keeps_pool p' method hmethod.1
  have hslot := hwide (.long 7) rfl (.inl ⟨7, rfl⟩) [method] hmethod
  rw [hindex] at hfresh hslot
  exact ⟨hlong, hmethod, hindex, hfresh, hkeeps, hkeeps', hslot, hfound _ _ rfl⟩

end JvmLift.Pool
