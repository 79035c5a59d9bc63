import Mathlib
import JvmLift.Flow.Reach

/-!
# What a search finds

The breadth-first search stops after as many rounds as there are vertices. This loses nothing: a round that adds no
vertex ends the search, and there are not more vertices to add than rounds. So the search finds exactly what the starts
lead to. Where it matters which vertices are on the way, the steps are read as a path.
-/

namespace JvmLift.Flow

open Relation

variable {next : Nat → List Nat}

/-- The relation along which a search goes. -/
abbrev Along (next : Nat → List Nat) (a b : Nat) : Prop := b ∈ next a

lemma subset_spread (n : Nat) (seen frontier : List Nat) : seen ⊆ spread next n seen frontier := by
  induction n generalizing seen frontier with
  | zero => simp [spread]
  | succ n ih =>
    rw [spread]
    split
    · exact fun _ h => h
    · exact fun a ha => ih _ _ (List.mem_append_left _ ha)

/-- What a round adds is next to the frontier. -/
lemma mem_fresh {seen frontier : List Nat} {v : Nat} :
    v ∈ ((frontier.flatMap next).filter fun v => !seen.contains v).eraseDups ↔
      (∃ a ∈ frontier, v ∈ next a) ∧ v ∉ seen := by
  simp [List.mem_eraseDups]

/-- **Soundness.** All that is found is led to from what was seen. -/
lemma exists_of_mem_spread (n : Nat) {seen frontier : List Nat} (hsub : frontier ⊆ seen) {v : Nat}
    (hv : v ∈ spread next n seen frontier) : ∃ a ∈ seen, ReflTransGen (Along next) a v := by
  induction n generalizing seen frontier with
  | zero => exact ⟨v, hv, .refl⟩
  | succ n ih =>
    rw [spread] at hv
    split at hv
    · exact ⟨v, hv, .refl⟩
    · obtain ⟨b, hb, hpath⟩ := ih (List.subset_append_right _ _) hv
      rcases List.mem_append.mp hb with hb | hb
      · exact ⟨b, hb, hpath⟩
      · obtain ⟨⟨a, ha, hab⟩, -⟩ := mem_fresh.mp hb
        exact ⟨a, hsub ha, .head hab hpath⟩

lemma nodup_eraseDups {α : Type} [BEq α] [LawfulBEq α] : ∀ xs : List α, xs.eraseDups.Nodup
  | [] => by simp
  | x :: xs => by
    rw [List.eraseDups_cons, List.nodup_cons]
    exact ⟨by simp [List.mem_eraseDups], nodup_eraseDups _⟩
termination_by xs => xs.length
decreasing_by exact Nat.lt_succ_of_le (List.length_filter_le _ _)

/-- As many distinct numbers below `size` as there are hold them all. -/
lemma mem_of_size_le_length {size : Nat} {seen : List Nat} (hnd : seen.Nodup) (hlt : ∀ a ∈ seen, a < size)
    (hlen : size ≤ seen.length) {v : Nat} (hv : v < size) : v ∈ seen := by
  have hsub : seen ⊆ List.range size := fun a ha => List.mem_range.mpr (hlt a ha)
  have hperm := (hnd.subperm hsub).perm_of_length_le (by simpa using hlen)
  exact hperm.mem_iff.mpr (List.mem_range.mpr hv)

/-- **Closure.** With as many rounds left as there are vertices not seen, the search misses no edge. -/
lemma spread_closed {size : Nat} (hnext : ∀ a < size, ∀ b ∈ next a, b < size) (n : Nat) {seen frontier : List Nat}
    (hnd : seen.Nodup) (hlt : ∀ a ∈ seen, a < size) (hsub : frontier ⊆ seen)
    (hdone : ∀ a ∈ seen, a ∉ frontier → ∀ b ∈ next a, b ∈ seen) (hlen : size ≤ n + seen.length) {a b : Nat}
    (ha : a ∈ spread next n seen frontier) (hb : b ∈ next a) : b ∈ spread next n seen frontier := by
  induction n generalizing seen frontier with
  | zero =>
    -- no round is left, so everything has been seen
    exact mem_of_size_le_length hnd hlt (by omega) (hnext a (hlt a ha) b hb)
  | succ n ih =>
    rw [spread] at ha ⊢
    split at ha
    case isTrue hnew =>
      rw [if_pos hnew]
      by_cases haf : a ∈ frontier
      · by_contra hbs
        have hmem := mem_fresh.mpr ⟨(⟨a, haf, hb⟩ : ∃ a ∈ frontier, b ∈ next a), hbs⟩
        rw [List.isEmpty_iff.mp hnew] at hmem
        cases hmem
      · exact hdone a ha haf b hb
    case isFalse hnew =>
      rw [if_neg hnew]
      refine ih ?_ ?_ (List.subset_append_right _ _) ?_ ?_ ha
      · refine List.nodup_append.mpr ⟨hnd, nodup_eraseDups _, ?_⟩
        rintro c hc _ hc' rfl
        exact (mem_fresh.mp hc').2 hc
      · intro c hc
        rcases List.mem_append.mp hc with hc | hc
        · exact hlt c hc
        · obtain ⟨⟨d, hd, hdc⟩, -⟩ := mem_fresh.mp hc
          exact hnext d (hlt d (hsub hd)) c hdc
      · intro c hc hcf d hd
        have hcs : c ∈ seen := (List.mem_append.mp hc).resolve_right hcf
        by_cases hds : d ∈ seen
        · exact List.mem_append_left _ hds
        · by_cases hcfr : c ∈ frontier
          · exact List.mem_append_right _ (mem_fresh.mpr ⟨⟨c, hcfr, hd⟩, hds⟩)
          · exact absurd (hdone c hcs hcfr d hd) hds
      · have hpos := List.length_pos_iff.mpr (mt List.isEmpty_iff.mpr hnew)
        rw [List.length_append]
        omega

/-- What is found is led to, also where edges leave the graph. -/
lemma exists_of_mem_reach {size : Nat} {starts : List Nat} {v : Nat} (hv : v ∈ reach size next starts) :
    ∃ a ∈ starts, ReflTransGen (Along next) a v := by
  obtain ⟨a, ha, hpath⟩ := exists_of_mem_spread size (fun _ h => h) hv
  exact ⟨a, List.mem_eraseDups.mp ha, hpath⟩

/-- **What a search finds.** In a graph whose edges do not leave it, the search finds exactly what the starts lead
to. -/
lemma mem_reach_iff {size : Nat} (hnext : ∀ a < size, ∀ b ∈ next a, b < size) {starts : List Nat}
    (hstarts : ∀ a ∈ starts, a < size) {v : Nat} :
    v ∈ reach size next starts ↔ ∃ a ∈ starts, ReflTransGen (Along next) a v := by
  constructor
  · exact exists_of_mem_reach
  · rintro ⟨a, ha, hpath⟩
    induction hpath with
    | refl => exact subset_spread _ _ _ (List.mem_eraseDups.mpr ha)
    | tail _ hbc ih =>
      refine spread_closed hnext size (nodup_eraseDups _) ?_ (fun _ h => h) ?_ (by omega) ih hbc
      · exact fun c hc => hstarts c (List.mem_eraseDups.mp hc)
      · exact fun c hc hcf => absurd hc hcf

/-- A path in a graph whose edges do not leave it stays inside. -/
lemma lt_of_path {size : Nat} (hnext : ∀ a < size, ∀ b ∈ next a, b < size) {a b : Nat} (ha : a < size)
    (hpath : ReflTransGen (Along next) a b) : b < size := by
  induction hpath with
  | refl => exact ha
  | tail _ hbc ih => exact hnext _ ih _ hbc

/-- A search does not leave its graph. -/
lemma lt_of_mem_reach {size : Nat} (hnext : ∀ a < size, ∀ b ∈ next a, b < size) {starts : List Nat}
    (hstarts : ∀ a ∈ starts, a < size) {v : Nat} (hv : v ∈ reach size next starts) : v < size := by
  obtain ⟨a, ha, hpath⟩ := exists_of_mem_reach hv
  exact lt_of_path hnext (hstarts a ha) hpath

/-! ### Extreme elements -/

variable {α : Type} {key : α → Nat}

/-- A fold that keeps its best or takes the next element ends with an element, or with the best it began with. -/
lemma foldl_mem_of_keeps {f : Option α → α → Option α} (hf : ∀ best x, f best x = best ∨ f best x = some x)
    {xs : List α} {best : Option α} {x : α} (h : xs.foldl f best = some x) : x ∈ xs ∨ best = some x := by
  induction xs generalizing best with
  | nil => exact .inr h
  | cons y rest ih =>
    rcases ih h with hx | hx
    · exact .inl (List.mem_cons_of_mem _ hx)
    · rcases hf best y with hk | hk
      · exact .inr (hk ▸ hx)
      · rw [hk] at hx
        cases hx
        exact .inl List.mem_cons_self

lemma mem_of_leastBy? {xs : List α} {x : α} (h : leastBy? key xs = some x) : x ∈ xs := by
  refine (foldl_mem_of_keeps (fun best y => ?_) h).resolve_right nofun
  split <;> simp

lemma mem_of_lastGreatestBy? {xs : List α} {x : α} (h : lastGreatestBy? key xs = some x) : x ∈ xs := by
  refine (foldl_mem_of_keeps (fun best y => ?_) h).resolve_right nofun
  split <;> simp

/-- A fold whose steps bound their best and the next element ends with a bound of them all. -/
lemma foldl_bounds {r : α → α → Prop} (hrefl : ∀ x, r x x) (htrans : ∀ x y z, r x y → r y z → r x z)
    {f : Option α → α → Option α} (hf : ∀ best x, ∃ y, f best x = some y ∧ r x y ∧ ∀ z, best = some z → r z y)
    {xs : List α} {best : Option α} {y : α} (h : xs.foldl f best = some y) :
    (∀ x ∈ xs, r x y) ∧ ∀ z, best = some z → r z y := by
  induction xs generalizing best with
  | nil => exact ⟨nofun, fun z hz => Option.some.inj (hz.symm.trans h) ▸ hrefl y⟩
  | cons x rest ih =>
    obtain ⟨hrest, hbest⟩ := ih h
    obtain ⟨y', hy', hx, hz⟩ := hf best x
    have hstep := hbest y' hy'
    exact ⟨List.forall_mem_cons.mpr ⟨htrans _ _ _ hx hstep, hrest⟩, fun z h => htrans _ _ _ (hz z h) hstep⟩

lemma le_of_leastBy? {xs : List α} {x y : α} (h : leastBy? key xs = some x) (hy : y ∈ xs) : key x ≤ key y := by
  refine (foldl_bounds (r := fun a b => key b ≤ key a) (fun _ => le_rfl) (fun _ _ _ h h' => h'.trans h)
    (fun best x => ?_) h).1 y hy
  cases best with
  | none => simp
  | some z => by_cases hle : key z ≤ key x <;> simp [hle, le_of_not_ge]

lemma le_of_lastGreatestBy? {xs : List α} {x y : α} (h : lastGreatestBy? key xs = some x) (hy : y ∈ xs) :
    key y ≤ key x := by
  refine (foldl_bounds (r := fun a b => key a ≤ key b) (fun _ => le_rfl) (fun _ _ _ => le_trans)
    (fun best x => ?_) h).1 y hy
  cases best with
  | none => simp
  | some z => by_cases hlt : key x < key z <;> simp [hlt, le_of_lt, not_lt.mp]

/-- A fold each of whose steps has a best element ends with one, unless there is nothing to fold. -/
lemma isSome_foldl {f : Option α → α → Option α} (hf : ∀ best x, (f best x).isSome = true) {xs : List α} (hne : xs ≠ [])
    {best : Option α} : (xs.foldl f best).isSome = true := by
  rw [← List.dropLast_append_getLast hne, List.foldl_append]
  exact hf _ _

lemma isSome_lastGreatestBy? {xs : List α} {x : α} (hx : x ∈ xs) : (lastGreatestBy? key xs).isSome = true := by
  refine isSome_foldl (fun best x => ?_) (List.ne_nil_of_mem hx)
  cases best with
  | none => rfl
  | some y => split <;> rfl

lemma isSome_leastBy? {xs : List α} (hne : xs ≠ []) : (leastBy? key xs).isSome = true := by
  refine isSome_foldl (fun best x => ?_) hne
  cases best with
  | none => rfl
  | some y => split <;> rfl

lemma leastBy?_eq_none_iff {xs : List α} : leastBy? key xs = none ↔ xs = [] := by
  constructor
  · intro h
    by_contra hne
    have hsome : (leastBy? key xs).isSome = true := isSome_leastBy? hne
    simp [h] at hsome
  · rintro rfl
    rfl

/-- Where different elements have different keys, there is only one least element. -/
lemma leastBy?_eq_some_iff {xs : List α} (hkeys : ∀ x ∈ xs, ∀ y ∈ xs, key x = key y → x = y) {x : α} :
    leastBy? key xs = some x ↔ x ∈ xs ∧ ∀ y ∈ xs, y ≠ x → key x < key y := by
  constructor
  · intro h
    have hx := mem_of_leastBy? h
    refine ⟨hx, fun y hy hne => ?_⟩
    exact lt_of_le_of_ne (le_of_leastBy? h hy) fun hkey => hne (hkeys y hy x hx hkey.symm)
  · rintro ⟨hx, hleast⟩
    cases h : leastBy? key xs with
    | none =>
      rw [leastBy?_eq_none_iff.mp h] at hx
      cases hx
    | some y =>
      by_contra hne
      have hlt := hleast y (mem_of_leastBy? h) fun heq => hne (congrArg some heq)
      exact absurd (le_of_leastBy? h hx) (Nat.not_le.mpr hlt)

/-! ### Paths -/

/-- A path from a vertex to another one, with the vertices on it, both ends included. -/
inductive IsPath (R : Nat → Nat → Prop) : Nat → List Nat → Nat → Prop
  | here (a : Nat) : IsPath R a [a] a
  | step {a b c : Nat} {path : List Nat} (edge : R a b) (rest : IsPath R b path c) : IsPath R a (a :: path) c

namespace IsPath

variable {R : Nat → Nat → Prop} {a b : Nat} {path : List Nat}

lemma first_mem (h : IsPath R a path b) : a ∈ path := by
  cases h <;> exact List.mem_cons_self

lemma ne_nil (h : IsPath R a path b) : path ≠ [] :=
  List.ne_nil_of_mem h.first_mem

end IsPath

/-- Steps each of which goes on from a vertex in `Q` to one in `P` are a path through vertices in `P`, all of which but
the last are in `Q`. -/
lemma exists_path_iff {R : Nat → Nat → Prop} {P Q : Nat → Prop} {a b : Nat} :
    (∃ path, IsPath R a path b ∧ (∀ v ∈ path, P v) ∧ ∀ v ∈ path.dropLast, Q v) ↔
      P a ∧ ReflTransGen (fun v w => Q v ∧ R v w ∧ P w) a b := by
  constructor
  · rintro ⟨path, hpath, hP, hQ⟩
    induction hpath with
    | here a => exact ⟨hP a (by simp), .refl⟩
    | step hedge hrest ih =>
      rw [List.dropLast_cons_of_ne_nil hrest.ne_nil] at hQ
      rw [List.forall_mem_cons] at hP hQ
      obtain ⟨hnext, hsteps⟩ := ih hP.2 hQ.2
      exact ⟨hP.1, .head ⟨hQ.1, hedge, hnext⟩ hsteps⟩
  · rintro ⟨ha, hsteps⟩
    induction hsteps using ReflTransGen.head_induction_on with
    | refl => exact ⟨[b], .here b, by simpa using ha, by simp⟩
    | @head a c hstep _ ih =>
      obtain ⟨hQ, hedge, hc⟩ := hstep
      obtain ⟨path, hpath, hPs, hQs⟩ := ih hc
      refine ⟨a :: path, .step hedge hpath, List.forall_mem_cons.mpr ⟨ha, hPs⟩, ?_⟩
      rw [List.dropLast_cons_of_ne_nil hpath.ne_nil]
      exact List.forall_mem_cons.mpr ⟨hQ, hQs⟩

end JvmLift.Flow
