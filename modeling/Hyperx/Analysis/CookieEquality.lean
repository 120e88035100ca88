import Hyperx.Model.Cookie
import Mathlib.Data.List.Perm.Subperm
import Mathlib.Data.List.Nodup

/-!
# When `Cookie`'s equality is set equality

`impl PartialEq for Cookie` (cookie.rs:158-171) compares lengths and then looks each pair
of the left cookie up with `get`, which reads the first pair of a name. On cookies whose
names are pairwise distinct, `get` answers membership (`get_eq_some_iff`), and the test
is exactly that the two pair lists are permutations of each other
(`cookie_eq_iff_perm`): the order-insensitive comparison `test_eq` exercises.

A name that `append` stores twice breaks this. The second pair of the name is looked up
as its first, so a cookie holding `a=1; a=2` is not equal to itself, and a cookie
holding `a=1; a=1` equals it while it does not equal that cookie
(`cookie_eq_breaks_on_repeated_name`).
-/

set_option autoImplicit false

namespace Hyperx.Analysis.CookieEquality

open Hyperx.Model

/-- On a map whose keys are pairwise distinct, `get` finds exactly the stored pairs. -/
theorem get_eq_some_iff {K V : Type} [DecidableEq K] {m : VecMap K V}
    (h : (m.vec.map Prod.fst).Nodup) {k : K} {v : V} :
    m.get k = some v ↔ (k, v) ∈ m.vec := by
  obtain ⟨vec⟩ := m
  simp only [VecMap.get]
  induction vec with
  | nil => simp
  | cons e vec ih =>
    obtain ⟨hfresh, hnd⟩ := List.nodup_cons.mp h
    by_cases he : e.1 = k
    · have : (k, v) ∉ vec := fun hm => hfresh (he ▸ List.mem_map_of_mem Prod.fst hm)
      obtain ⟨k', v'⟩ := e
      simp only at he
      subst he
      simp [this, eq_comm]
    · have : (k, v) ≠ e := fun hkv => he (hkv ▸ rfl)
      simp [he, this, ih hnd]

/-- `eq` holds when the lengths agree and `get` finds every pair of the left cookie. -/
theorem eq_iff (c d : Cookie) :
    c.eq d = true ↔ c.iter.length = d.iter.length ∧ ∀ p ∈ c.iter, d.get p.1 = some p.2 := by
  unfold Cookie.eq
  split <;> simp_all [Cookie.iter, VecMap.iter, VecMap.len]

/-- On pair lists with pairwise distinct names, the length check and the `get` of every
left pair hold exactly when the lists are equal up to order. -/
theorem eq_true_iff_perm {c d : Cookie} (hc : (c.iter.map Prod.fst).Nodup)
    (hd : (d.iter.map Prod.fst).Nodup) : c.eq d = true ↔ c.iter.Perm d.iter := by
  have hget : ∀ p ∈ c.iter, d.get p.1 = some p.2 ↔ p ∈ d.iter :=
    fun p _ => get_eq_some_iff hd
  rw [eq_iff]
  constructor
  · rintro ⟨hlen, hall⟩
    have hsub : c.iter ⊆ d.iter := fun p hp => (hget p hp).mp (hall p hp)
    exact ((List.Nodup.of_map Prod.fst hc).subperm hsub).perm_of_length_le hlen.ge
  · intro hperm
    exact ⟨hperm.length_eq, fun p hp => (hget p hp).mpr (hperm.subset hp)⟩

/-- For cookies whose names are pairwise distinct, `==` is equality of the pair lists up
to order. -/
theorem cookie_eq_iff_perm (c d : Cookie) (hc : (c.iter.map Prod.fst).Nodup)
    (hd : (d.iter.map Prod.fst).Nodup) : c.eq d = true ↔ c.iter.Perm d.iter :=
  eq_true_iff_perm hc hd

/-- Two pairs in either order. -/
theorem cookie_eq_iff_perm_swapped :
    (((Cookie.new.append "a".toList "1".toList).append "b".toList "2".toList).iter.map
        Prod.fst).Nodup ∧
    (((Cookie.new.append "b".toList "2".toList).append "a".toList "1".toList).iter.map
        Prod.fst).Nodup ∧
    (((Cookie.new.append "a".toList "1".toList).append "b".toList "2".toList).eq
        ((Cookie.new.append "b".toList "2".toList).append "a".toList "1".toList) = true ↔
      ((Cookie.new.append "a".toList "1".toList).append "b".toList "2".toList).iter.Perm
        ((Cookie.new.append "b".toList "2".toList).append "a".toList "1".toList).iter) :=
  ⟨by decide, by decide, cookie_eq_iff_perm _ _ (by decide) (by decide)⟩

/-- A name appended twice: `a=1; a=2` is not equal to itself, and `a=1; a=1` equals it
while it does not equal `a=1; a=1`. -/
theorem cookie_eq_breaks_on_repeated_name :
    ((Cookie.new.append "a".toList "1".toList).append "a".toList "2".toList).eq
        ((Cookie.new.append "a".toList "1".toList).append "a".toList "2".toList) = false ∧
    ((Cookie.new.append "a".toList "1".toList).append "a".toList "1".toList).eq
        ((Cookie.new.append "a".toList "1".toList).append "a".toList "2".toList) = true ∧
    ((Cookie.new.append "a".toList "1".toList).append "a".toList "2".toList).eq
        ((Cookie.new.append "a".toList "1".toList).append "a".toList "1".toList) = false := by
  decide

end Hyperx.Analysis.CookieEquality
