import Hyperx.Model.Cell

/-!
# `PtrMapCell` is a finite map from `TypeId` to values

Read as a finite map (`toAList`), every representation answers `get`, `get_mut` and
`into_value` by lookup, and `insert` is the map's insertion on the nose
(`toAList_insert`), whichever constructor it starts from. The `One → Many` promotion
through `mem::replace` is therefore invisible to lookups.

A run is a sequence of `insert` calls from `new()` or `with_one(k₀, v₀)`. When the keys
are pairwise distinct, as the unchecked precondition of `insert` demands, the invariant
`Refines done m` holds after the inserts `done`: lookups answer membership in `done`,
and the constructor is fixed by the number of keys (`Stores`, kept by `insert_stores`).
It is preserved by one insert (`insert_refines`) and so by every run (`run_refines`),
with no panic on the way in either build. The two results at the end read it at every
point of a run and at its last state.
-/

set_option autoImplicit false

namespace Hyperx.Analysis.PtrMapRefinement

open Hyperx.Model

variable {K V : Type} [DecidableEq K]

/-! ## The abstraction -/

/-- The finite map a representation stands for. -/
def toAList : PtrMap K V → AList fun _ : K => V
  | .empty => ∅
  | .one id v => AList.singleton id v
  | .many hm => hm

/-- Lookup in a one-entry map. -/
theorem lookup_singleton (id key : K) (v : V) :
    (AList.singleton id v : AList fun _ : K => V).lookup key =
      if id = key then some v else none := by
  by_cases h : id = key
  · subst h; simp [AList.lookup, List.dlookup_cons_eq]
  · simp [AList.lookup, h,
      List.dlookup_cons_ne [] (⟨id, v⟩ : Sigma fun _ : K => V) (Ne.symm h)]

/-- `get` is lookup in the represented map. -/
theorem get_eq_lookup (m : PtrMap K V) (key : K) :
    PtrMapCell.get m key = (toAList m).lookup key := by
  cases m with
  | empty => rfl
  | one id v => simp [PtrMapCell.get, toAList, lookup_singleton]
  | many hm => rfl

/-- The value `get_mut` hands out is the one `get` returns. -/
theorem getMut_map_fst (m : PtrMap K V) (key : K) :
    (PtrMapCell.getMut m key).map Prod.fst = PtrMapCell.get m key := by
  cases m with
  | empty => rfl
  | one id v => by_cases h : id = key <;> simp [PtrMapCell.getMut, PtrMapCell.get, h]
  | many hm => simp [PtrMapCell.getMut, PtrMapCell.get, Option.map_map, Function.comp_def]

/-- `into_value` returns what `get` returns. -/
theorem intoValue_eq_get (m : PtrMap K V) (key : K) :
    PtrMapCell.intoValue m key = PtrMapCell.get m key := by
  cases m <;> simp [PtrMapCell.intoValue, PtrMapCell.get, AList.extract_eq_lookup_erase]

/-- `insert` is the map's insertion, whichever constructor it promotes. -/
theorem toAList_insert {d : Bool} {m m' : PtrMap K V} {key : K} {val : V}
    (h : PtrMapCell.insert d m key val = some m') : toAList m' = (toAList m).insert key val := by
  cases m with
  | empty => cases h; rfl
  | one id one =>
    simp only [PtrMapCell.insert] at h
    split at h
    · cases h
    · cases h; simp [toAList, AList.insert_empty]
  | many hm => cases h; rfl

/-! ## The run invariant -/

/-- The representation `m` holds `n` keys: `Empty` for none, `One` for one, and `Many`
with exactly `n` entries for two or more. -/
def Stores (n : Nat) : PtrMap K V → Prop
  | .empty => n = 0
  | .one _ _ => n = 1
  | .many hm => 2 ≤ n ∧ hm.entries.length = n

/-- Position of a representation along `Empty → One → Many`. -/
def stage : PtrMap K V → Nat
  | .empty => 0
  | .one _ _ => 1
  | .many _ => 2

/-- After the inserts `done`, `m` is the finite map of `done`, in the constructor its
number of keys calls for. -/
structure Refines (done : List (K × V)) (m : PtrMap K V) : Prop where
  get_iff : ∀ k v, PtrMapCell.get m k = some v ↔ (k, v) ∈ done
  stores : Stores done.length m

/-- A key that no insert of `done` stored is absent from the represented map. -/
theorem not_mem_toAList {done : List (K × V)} {m : PtrMap K V} (hm : Refines done m)
    {k : K} (hk : k ∉ done.map Prod.fst) : k ∉ toAList m := by
  rw [← AList.lookup_isSome, ← get_eq_lookup, Option.isSome_iff_exists]
  rintro ⟨v, hv⟩
  exact hk (List.mem_map.mpr ⟨(k, v), (hm.get_iff k v).mp hv, rfl⟩)

/-- Inserting a key the map lacks does not panic, and the representation it promotes to
holds one more key. -/
theorem insert_stores {n : Nat} {m : PtrMap K V} (hst : Stores n m) {k : K}
    (hfresh : k ∉ toAList m) (v : V) (d : Bool) :
    ∃ m', PtrMapCell.insert d m k v = some m' ∧ Stores (n + 1) m' := by
  cases m with
  | empty => exact ⟨_, rfl, by simp only [Stores] at hst ⊢; omega⟩
  | one id u =>
    have hne : id ≠ k := by
      rintro rfl; simp [toAList, AList.mem_keys] at hfresh
    refine ⟨_, if_neg (by simp [hne]), ?_⟩
    simp only [Stores] at hst ⊢
    rw [AList.insert_entries_of_neg (by simp [AList.mem_keys, Ne.symm hne]), AList.insert_empty]
    simp [hst]
  | many map =>
    refine ⟨_, rfl, ?_⟩
    simp only [Stores] at hst ⊢
    rw [AList.insert_entries_of_neg (show k ∉ map from hfresh), List.length_cons]
    omega

/-- Step lemma: inserting a fresh key keeps `Refines`, and does not panic. -/
theorem insert_refines {done : List (K × V)} {m : PtrMap K V} (hm : Refines done m)
    {k : K} (hk : k ∉ done.map Prod.fst) (v : V) (d : Bool) :
    ∃ m', PtrMapCell.insert d m k v = some m' ∧ Refines (done ++ [(k, v)]) m' := by
  obtain ⟨m', hm', hst⟩ := insert_stores hm.stores (not_mem_toAList hm hk) v d
  refine ⟨m', hm', fun k' v' => ?_, by simpa using hst⟩
  rw [get_eq_lookup, toAList_insert hm', List.mem_append, List.mem_singleton]
  by_cases hk' : k' = k
  · subst hk'
    have : (k', v') ∉ done := fun hd => hk (List.mem_map.mpr ⟨_, hd, rfl⟩)
    simp [AList.lookup_insert, this, eq_comm]
  · rw [AList.lookup_insert_ne hk', ← get_eq_lookup, hm.get_iff]
    simp [hk']

/-- A run of `insert` calls. It is `none` once a call panics. -/
def run (d : Bool) (m : PtrMap K V) : List (K × V) → Option (PtrMap K V)
  | [] => some m
  | (k, v) :: ops => (PtrMapCell.insert d m k v).bind fun m' => run d m' ops

/-- Run lemma: inserting pairwise fresh keys keeps `Refines` and never panics. -/
theorem run_refines (d : Bool) (ops : List (K × V)) :
    ∀ {done : List (K × V)} {m : PtrMap K V}, Refines done m →
      ((done ++ ops).map Prod.fst).Nodup →
      ∃ s, run d m ops = some s ∧ Refines (done ++ ops) s := by
  induction ops with
  | nil => intro done m hm _; exact ⟨m, rfl, by simpa using hm⟩
  | cons kv ops ih =>
    intro done m hm hnd
    obtain ⟨k, v⟩ := kv
    have hk : k ∉ done.map Prod.fst := by
      simp only [List.map_append, List.map_cons, List.nodup_append] at hnd
      exact fun h => hnd.2.2 h (List.mem_cons_self _ _)
    obtain ⟨m', hm', href⟩ := insert_refines hm hk v d
    obtain ⟨s, hs, hsref⟩ := ih href (by simpa using hnd)
    exact ⟨s, by simp [run, hm', hs], by simpa using hsref⟩

/-- The representation a run starts from: `new()`, or `with_one(k₀, v₀)`. -/
def start : Option (K × V) → PtrMap K V
  | none => PtrMapCell.new
  | some (k, v) => PtrMapCell.withOne k v

/-- The starting representation holds exactly its optional first entry. -/
theorem start_refines (init : Option (K × V)) : Refines init.toList (start init) := by
  cases init with
  | none => exact ⟨by simp [start, PtrMapCell.new, PtrMapCell.get], rfl⟩
  | some kv =>
    obtain ⟨k, v⟩ := kv
    refine ⟨fun k' v' => ?_, rfl⟩
    by_cases h : k = k' <;> simp [start, PtrMapCell.withOne, PtrMapCell.get, h, eq_comm]

/-! ## The cell as a finite map -/

/-- Inserting never moves a representation back along `Empty → One → Many`. -/
theorem stage_le_insert {d : Bool} {m m' : PtrMap K V} {key : K} {val : V}
    (h : PtrMapCell.insert d m key val = some m') : stage m ≤ stage m' := by
  cases m with
  | empty => cases h; simp [stage]
  | one id one =>
    simp only [PtrMapCell.insert] at h
    split at h
    · cases h
    · cases h; simp [stage]
  | many hm => cases h; simp [stage]

omit [DecidableEq K] in
/-- `one()` succeeds exactly on a representation that holds one key. -/
theorem one_isSome_iff {n : Nat} {m : PtrMap K V} (h : Stores n m) :
    (PtrMapCell.one m).isSome ↔ n = 1 := by
  cases m with
  | empty => simp only [Stores] at h; simp [PtrMapCell.one, h]
  | one id v => simp only [Stores] at h; simp [PtrMapCell.one, h]
  | many hm => simp only [Stores] at h; simp [PtrMapCell.one]; omega

/-- On a representation holding one key, `one()` returns what `get` finds. -/
theorem one_eq_of_get {m : PtrMap K V} (h : Stores 1 m) {k : K} {v : V}
    (hg : PtrMapCell.get m k = some v) : PtrMapCell.one m = some v := by
  cases m with
  | empty => simp [Stores] at h
  | one id u =>
    simp only [PtrMapCell.get] at hg
    split at hg
    · exact hg
    · cases hg
  | many hm => simp [Stores] at h

/-- At every point of a run from `new()` or `with_one(k₀, v₀)` whose keys are pairwise
distinct, `get` returns exactly the values stored so far and `None` for every other
key, `get_mut` hands out the same entry, and `into_value` returns it. -/
theorem ptrMapCell_refines_finite_map (debugAssertions : Bool) (init : Option (K × V))
    (ops : List (K × V)) (hkeys : ((init.toList ++ ops).map Prod.fst).Nodup) (i : Nat) :
    ∃ s, run debugAssertions (start init) (ops.take i) = some s ∧
      ∀ k, (∀ v, PtrMapCell.get s k = some v ↔ (k, v) ∈ init.toList ++ ops.take i) ∧
        (PtrMapCell.getMut s k).map Prod.fst = PtrMapCell.get s k ∧
        PtrMapCell.intoValue s k = PtrMapCell.get s k := by
  have hpre : ((init.toList ++ ops.take i).map Prod.fst).Nodup :=
    hkeys.sublist (((List.take_sublist i ops).append_left _).map _)
  obtain ⟨s, hs, href⟩ := run_refines debugAssertions (ops.take i) (start_refines init) hpre
  exact ⟨s, hs, fun k => ⟨href.get_iff k, getMut_map_fst s k, intoValue_eq_get s k⟩⟩

/-- Two inserts after `new()`: the first point of the run holds the first key only. -/
theorem ptrMapCell_refines_finite_map_two_keys :
    (((none : Option (Nat × Nat)).toList ++ [(1, 10), (2, 20)]).map Prod.fst).Nodup ∧
    ∃ s, run true (start none) ([(1, 10), (2, 20)].take 1) = some s ∧
      ∀ k, (∀ v, PtrMapCell.get s k = some v ↔
          (k, v) ∈ (none : Option (Nat × Nat)).toList ++ [(1, 10), (2, 20)].take 1) ∧
        (PtrMapCell.getMut s k).map Prod.fst = PtrMapCell.get s k ∧
        PtrMapCell.intoValue s k = PtrMapCell.get s k :=
  ⟨by decide, ptrMapCell_refines_finite_map true none [(1, 10), (2, 20)] (by decide) 1⟩

/-- Along a run with pairwise distinct keys the representation is `Empty`, `One`, or
`Many` with one entry per key, as the number of stored keys says; `one()` succeeds
exactly when one key is stored, returning the value `get` returns for it; and no
insert moves the representation backwards. -/
theorem ptrMapCell_representation_follows_count (debugAssertions : Bool)
    (init : Option (K × V)) (ops : List (K × V))
    (hkeys : ((init.toList ++ ops).map Prod.fst).Nodup) :
    (∃ s, run debugAssertions (start init) ops = some s ∧
      Stores (init.toList ++ ops).length s ∧
      ((PtrMapCell.one s).isSome ↔ (init.toList ++ ops).length = 1) ∧
      ∀ k v, init.toList ++ ops = [(k, v)] →
        PtrMapCell.one s = some v ∧ PtrMapCell.get s k = some v) ∧
    ∀ (m m' : PtrMap K V) (k : K) (v : V),
      PtrMapCell.insert debugAssertions m k v = some m' → stage m ≤ stage m' := by
  refine ⟨?_, fun _ _ _ _ h => stage_le_insert h⟩
  obtain ⟨s, hs, href⟩ := run_refines debugAssertions ops (start_refines init) hkeys
  refine ⟨s, hs, href.stores, one_isSome_iff href.stores, fun k v hone => ?_⟩
  have hg : PtrMapCell.get s k = some v := (href.get_iff k v).mpr (by simp [hone])
  have hst : Stores 1 s := by simpa [hone] using href.stores
  exact ⟨one_eq_of_get hst hg, hg⟩

/-- Three inserts after `new()` end in `Many` with three entries. -/
theorem ptrMapCell_representation_follows_count_three_keys :
    (((none : Option (Nat × Nat)).toList ++ [(1, 10), (2, 20), (3, 30)]).map Prod.fst).Nodup ∧
    ((∃ s, run false (start none) [(1, 10), (2, 20), (3, 30)] = some s ∧
      Stores ((none : Option (Nat × Nat)).toList ++ [(1, 10), (2, 20), (3, 30)]).length s ∧
      ((PtrMapCell.one s).isSome ↔
        ((none : Option (Nat × Nat)).toList ++ [(1, 10), (2, 20), (3, 30)]).length = 1) ∧
      ∀ k v, (none : Option (Nat × Nat)).toList ++ [(1, 10), (2, 20), (3, 30)] = [(k, v)] →
        PtrMapCell.one s = some v ∧ PtrMapCell.get s k = some v) ∧
    ∀ (m m' : PtrMap Nat Nat) (k v : Nat),
      PtrMapCell.insert false m k v = some m' → stage m ≤ stage m') :=
  ⟨by decide, ptrMapCell_representation_follows_count false none _ (by decide)⟩

end Hyperx.Analysis.PtrMapRefinement
