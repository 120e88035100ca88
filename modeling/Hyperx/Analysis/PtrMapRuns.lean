import Hyperx.Analysis.PtrMapRefinement

/-!
# `PtrMapCell` under any sequence of calls

A header item's typed cache sees two kinds of calls: `insert(key, val)`, and `get_mut(key)`
followed by an assignment through the `&mut V` when there is an entry (cell.rs:84-99,
121-143). Here a run is any sequence of both, with any keys, repeated ones included.

Read through `toAList`, every call is the call of a plain finite-map program
(`toAList_step`): an insert is map insertion and a write through `get_mut` updates the
entry it found. So every run that does not panic ends in the map that program computes
(`ptrMapCell_calls_refine_alist`), in either build.

The builds differ in one check only, `debug_assert_ne!(id, key)` when `One` is promoted.
A call that passes it does what the release call does (`step_release_of_debug`), and a
debug run panics exactly when the release run meets an insert of the key a `One` holds
(`ptrMapCell_debug_panics_iff`). In both builds the
representation only moves forward, `Empty → One → Many`, whatever the keys
(`ptrMapCell_runs_only_move_forward`). The check is what keeps the representation
canonical: along every run of the debug build, `Many` holds two keys or more, so `one()`
succeeds exactly when one key is stored (`ptrMapCell_debug_runs_stay_canonical`). The
release build gives up that invariant: promoting `One(k, _)` with the same `k` leaves a
`Many` of one entry.
-/

set_option autoImplicit false

namespace Hyperx.Analysis.PtrMapRuns

open Hyperx.Model Hyperx.Analysis.PtrMapRefinement

variable {K V : Type} [DecidableEq K]

/-! ## Runs of calls -/

/-- A call on the cell: `insert(key, val)`, or `get_mut(key)` with the caller assigning
`f v` through the reference when it finds the value `v`. -/
inductive Op (K V : Type) where
  | insert (key : K) (val : V)
  | getMut (key : K) (f : V → V)

/-- One call; `none` is a panic. A `get_mut` that finds nothing leaves the cell as it
is. -/
def step (d : Bool) (m : PtrMap K V) : Op K V → Option (PtrMap K V)
  | .insert key val => PtrMapCell.insert d m key val
  | .getMut key f =>
    match PtrMapCell.getMut m key with
    | some (v, write) => some (write (f v))
    | none => some m

/-- A run of calls; `none` once a call panics. -/
def runCalls (d : Bool) (m : PtrMap K V) : List (Op K V) → Option (PtrMap K V)
  | [] => some m
  | op :: ops => (step d m op).bind fun m' => runCalls d m' ops

/-- The same call on a finite map. -/
def absStep (a : AList fun _ : K => V) : Op K V → AList fun _ : K => V
  | .insert key val => a.insert key val
  | .getMut key f =>
    match a.lookup key with
    | some v => a.insert key (f v)
    | none => a

/-- The same run on a finite map. -/
def absRun (a : AList fun _ : K => V) (ops : List (Op K V)) : AList fun _ : K => V :=
  ops.foldl absStep a

/-! ## Refinement -/

/-- A write through the reference `get_mut` hands out is map insertion of its key. -/
theorem toAList_getMut_write {m : PtrMap K V} {key : K} {v : V} {wr : V → PtrMap K V}
    (h : PtrMapCell.getMut m key = some (v, wr)) (w : V) :
    toAList (wr w) = (toAList m).insert key w := by
  cases m with
  | empty => cases h
  | one id u =>
    by_cases hid : id = key
    · subst hid
      simp only [PtrMapCell.getMut, if_pos, Option.some.injEq, Prod.mk.injEq] at h
      obtain ⟨rfl, rfl⟩ := h
      exact AList.insert_singleton_eq.symm
    · simp [PtrMapCell.getMut, hid] at h
  | many hm =>
    cases hl : hm.lookup key with
    | none => simp [PtrMapCell.getMut, hl] at h
    | some u =>
      simp only [PtrMapCell.getMut, hl, Option.map_some', Option.some.injEq,
        Prod.mk.injEq] at h
      obtain ⟨rfl, rfl⟩ := h
      rfl

/-- `get_mut` finds an entry exactly where the represented map has one. -/
theorem getMut_eq_none_iff (m : PtrMap K V) (key : K) :
    PtrMapCell.getMut m key = none ↔ (toAList m).lookup key = none := by
  rw [← get_eq_lookup, ← getMut_map_fst, Option.map_eq_none']

/-- Step lemma: every call that does not panic is the finite-map call. -/
theorem toAList_step {d : Bool} {m m' : PtrMap K V} {op : Op K V} (h : step d m op = some m') :
    toAList m' = absStep (toAList m) op := by
  cases op with
  | insert key val => exact toAList_insert h
  | getMut key f =>
    simp only [step] at h
    cases hg : PtrMapCell.getMut m key with
    | none =>
      rw [hg] at h
      cases h
      simp only [absStep, (getMut_eq_none_iff m key).mp hg]
    | some p =>
      obtain ⟨v, wr⟩ := p
      rw [hg] at h
      cases h
      have hl : (toAList m).lookup key = some v := by
        rw [← get_eq_lookup, ← getMut_map_fst, hg]; rfl
      simp only [absStep, hl, toAList_getMut_write hg]

/-- Run lemma: a run that does not panic ends in the map the finite-map run computes. -/
theorem toAList_runCalls {d : Bool} (ops : List (Op K V)) :
    ∀ {m m' : PtrMap K V}, runCalls d m ops = some m' →
      toAList m' = absRun (toAList m) ops := by
  induction ops with
  | nil => intro m m' h; cases h; rfl
  | cons op ops ih =>
    intro m m' h
    simp only [runCalls, Option.bind_eq_some] at h
    obtain ⟨m₁, h₁, h₂⟩ := h
    rw [ih h₂, toAList_step h₁]
    rfl

/-- PtrMapCell refinement over any run of calls: in either build, a run of `insert`
and `get_mut` writes that does not panic ends in a cell that is the map the same calls
compute on a finite map, and its `get`, `get_mut` and `into_value` answer by lookup in
that map. -/
theorem ptrMapCell_calls_refine_alist (d : Bool) (m : PtrMap K V) (ops : List (Op K V))
    {m' : PtrMap K V} (h : runCalls d m ops = some m') :
    toAList m' = absRun (toAList m) ops ∧
      ∀ k, PtrMapCell.get m' k = (absRun (toAList m) ops).lookup k ∧
        (PtrMapCell.getMut m' k).map Prod.fst = (absRun (toAList m) ops).lookup k ∧
        PtrMapCell.intoValue m' k = (absRun (toAList m) ops).lookup k := by
  have hrun := toAList_runCalls ops h
  refine ⟨hrun, fun k => ?_⟩
  rw [getMut_map_fst, intoValue_eq_get, get_eq_lookup, hrun]
  exact ⟨rfl, rfl, rfl⟩

/-- Inserting 1, writing `+1` through `get_mut(1)`, then inserting 2, from `new()`. -/
theorem ptrMapCell_calls_refine_alist_three_calls :
    runCalls true (PtrMapCell.new : PtrMap Nat Nat) [.insert 1 10, .getMut 1 (· + 1), .insert 2 20] =
      some (.many (((∅ : AList fun _ : Nat => Nat).insert 1 11).insert 2 20)) ∧
    (toAList (.many (((∅ : AList fun _ : Nat => Nat).insert 1 11).insert 2 20)) =
        absRun (toAList (PtrMapCell.new : PtrMap Nat Nat))
          [.insert 1 10, .getMut 1 (· + 1), .insert 2 20] ∧
      ∀ k, PtrMapCell.get (.many (((∅ : AList fun _ : Nat => Nat).insert 1 11).insert 2 20)) k =
          (absRun (toAList (PtrMapCell.new : PtrMap Nat Nat))
            [.insert 1 10, .getMut 1 (· + 1), .insert 2 20]).lookup k ∧
        (PtrMapCell.getMut (.many (((∅ : AList fun _ : Nat => Nat).insert 1 11).insert 2 20))
            k).map Prod.fst =
          (absRun (toAList (PtrMapCell.new : PtrMap Nat Nat))
            [.insert 1 10, .getMut 1 (· + 1), .insert 2 20]).lookup k ∧
        PtrMapCell.intoValue (.many (((∅ : AList fun _ : Nat => Nat).insert 1 11).insert 2 20))
            k =
          (absRun (toAList (PtrMapCell.new : PtrMap Nat Nat))
            [.insert 1 10, .getMut 1 (· + 1), .insert 2 20]).lookup k) :=
  ⟨rfl, ptrMapCell_calls_refine_alist true _ _ rfl⟩

/-! ## The debug check -/

/-- A call that passes the debug check does what the release call does. -/
theorem step_release_of_debug {m m' : PtrMap K V} {op : Op K V} (h : step true m op = some m') :
    step false m op = some m' := by
  cases op with
  | insert key val =>
    cases m with
    | one id u =>
      simp only [step, PtrMapCell.insert] at h ⊢
      split at h
      · cases h
      · simpa using h
    | empty => exact h
    | many hm => exact h
  | getMut key f => exact h

/-- The one call that panics in the debug build: an insert of the key a `One` holds. -/
theorem step_debug_eq_none_iff (m : PtrMap K V) (op : Op K V) :
    step true m op = none ↔ ∃ key val u, op = .insert key val ∧ m = .one key u := by
  cases op with
  | insert key val =>
    cases m with
    | one id u =>
      by_cases hid : id = key
      · subst hid; simp [step, PtrMapCell.insert]
      · simp [step, PtrMapCell.insert, hid, Ne.symm hid]
    | empty => simp [step, PtrMapCell.insert]
    | many hm => simp [step, PtrMapCell.insert]
  | getMut key f =>
    simp only [step, reduceCtorEq, false_and, exists_false, iff_false]
    split <;> simp

/-- PtrMapCell debug panics: a run of the debug build panics exactly when one of its
calls inserts the key that the cell holds alone, in the `One` the release run has
reached just before that call. -/
theorem ptrMapCell_debug_panics_iff (m : PtrMap K V) (ops : List (Op K V)) :
    runCalls true m ops = none ↔
      ∃ i, ∃ hi : i < ops.length, ∃ key val u, ops[i] = .insert key val ∧
        runCalls false m (ops.take i) = some (.one key u) := by
  induction ops generalizing m with
  | nil => simp [runCalls]
  | cons op ops ih =>
    cases h₁ : step true m op with
    | none =>
      obtain ⟨key, val, u, rfl, rfl⟩ := (step_debug_eq_none_iff m op).mp h₁
      simp only [runCalls, h₁, Option.none_bind, true_iff]
      exact ⟨0, by simp, key, val, u, rfl, rfl⟩
    | some m₁ =>
      have hrel := step_release_of_debug h₁
      simp only [runCalls, h₁, Option.some_bind, ih]
      constructor
      · rintro ⟨i, hi, key, val, u, hop, hrun⟩
        exact ⟨i + 1, by simp [hi], key, val, u, hop,
          by simp only [List.take_succ_cons, runCalls, hrel, Option.some_bind, hrun]⟩
      · rintro ⟨_ | i, hi, key, val, u, hop, hrun⟩
        · simp only [List.getElem_cons_zero] at hop
          simp only [List.take_zero, runCalls, Option.some.injEq] at hrun
          rw [(step_debug_eq_none_iff m op).mpr ⟨key, val, u, hop, hrun⟩] at h₁
          cases h₁
        · simp only [List.take_succ_cons, runCalls, hrel, Option.some_bind] at hrun
          exact ⟨i, by simpa using hi, key, val, u, hop, hrun⟩

/-! ## Forward only -/

/-- A write through `get_mut` leaves the representation where it was. -/
theorem stage_getMut_write {m : PtrMap K V} {key : K} {v : V} {wr : V → PtrMap K V}
    (h : PtrMapCell.getMut m key = some (v, wr)) (w : V) : stage (wr w) = stage m := by
  cases m with
  | empty => cases h
  | one id u =>
    by_cases hid : id = key
    · simp only [PtrMapCell.getMut, if_pos hid, Option.some.injEq, Prod.mk.injEq] at h
      obtain ⟨-, rfl⟩ := h
      rfl
    · simp [PtrMapCell.getMut, hid] at h
  | many hm =>
    cases hl : hm.lookup key with
    | none => simp [PtrMapCell.getMut, hl] at h
    | some u =>
      simp only [PtrMapCell.getMut, hl, Option.map_some', Option.some.injEq,
        Prod.mk.injEq] at h
      obtain ⟨-, rfl⟩ := h
      rfl

/-- No call moves the representation backwards. -/
theorem stage_le_step {d : Bool} {m m' : PtrMap K V} {op : Op K V} (h : step d m op = some m') :
    stage m ≤ stage m' := by
  cases op with
  | insert key val => exact stage_le_insert h
  | getMut key f =>
    simp only [step] at h
    cases hg : PtrMapCell.getMut m key with
    | none =>
      rw [hg] at h
      cases h
      exact le_rfl
    | some p =>
      obtain ⟨v, wr⟩ := p
      rw [hg] at h
      cases h
      exact (stage_getMut_write hg _).ge

/-- PtrMapCell forward only: in either build, from any state, a run of `insert` and
`get_mut` calls on any keys, repeated ones included, that does not panic ends no earlier
along `Empty → One → Many` than it started; the cell never shrinks back. -/
theorem ptrMapCell_runs_only_move_forward (d : Bool) (m : PtrMap K V) (ops : List (Op K V))
    {m' : PtrMap K V} (h : runCalls d m ops = some m') : stage m ≤ stage m' := by
  induction ops generalizing m with
  | nil =>
    cases h
    exact le_rfl
  | cons op ops ih =>
    simp only [runCalls, Option.bind_eq_some] at h
    obtain ⟨m₁, h₁, h₂⟩ := h
    exact (stage_le_step h₁).trans (ih m₁ h₂)

/-- The release build promotes `One(1, _)` on an insert of the same key, and still moves
forward. -/
theorem ptrMapCell_runs_only_move_forward_same_key :
    runCalls false (PtrMap.one 1 10 : PtrMap Nat Nat) [.insert 1 20] =
        some (.many (((∅ : AList fun _ : Nat => Nat).insert 1 10).insert 1 20)) ∧
      stage (PtrMap.one 1 10 : PtrMap Nat Nat) ≤
        stage (PtrMap.many (((∅ : AList fun _ : Nat => Nat).insert 1 10).insert 1 20)) :=
  have hrun : runCalls false (PtrMap.one 1 10 : PtrMap Nat Nat) [.insert 1 20] =
      some (.many (((∅ : AList fun _ : Nat => Nat).insert 1 10).insert 1 20)) := rfl
  ⟨hrun, ptrMapCell_runs_only_move_forward false _ [.insert 1 20] hrun⟩

/-! ## The canonical representation -/

/-- The representation matches the number of keys it holds: `Many` only from two keys
on. -/
def Canonical (m : PtrMap K V) : Prop := Stores (toAList m).keys.length m

omit [DecidableEq K] in
/-- `Empty` holds no key and is canonical. -/
theorem canonical_empty : Canonical (PtrMap.empty : PtrMap K V) := rfl

omit [DecidableEq K] in
/-- `One` holds one key and is canonical. -/
theorem canonical_one (k : K) (v : V) : Canonical (PtrMap.one k v) := rfl

omit [DecidableEq K] in
/-- `Many` is canonical exactly when it holds two keys or more. -/
theorem canonical_many_iff (hm : AList fun _ : K => V) :
    Canonical (PtrMap.many hm) ↔ 2 ≤ hm.keys.length := by
  simp [Canonical, Stores, toAList, AList.keys, List.keys]

/-- Map insertion never loses a key. -/
theorem length_keys_le_insert (s : AList fun _ : K => V) (a : K) (b : V) :
    s.keys.length ≤ (s.insert a b).keys.length := by
  rw [AList.keys_insert, List.length_cons, List.length_erase]
  split <;> omega

/-- Step lemma: a call of the debug build keeps the representation canonical. -/
theorem canonical_step {m m' : PtrMap K V} {op : Op K V} (hm : Canonical m)
    (h : step true m op = some m') : Canonical m' := by
  cases m with
  | empty =>
    cases op with
    | insert key val => cases h; exact canonical_one key val
    | getMut key f => cases h; exact canonical_empty
  | one id u =>
    cases op with
    | insert key val =>
      simp only [step, PtrMapCell.insert] at h
      split at h
      · cases h
      · next hid =>
        cases h
        have hne : key ≠ id := fun he => hid (by simp [he])
        simp [canonical_many_iff, AList.keys_insert,
          List.erase_of_not_mem (show key ∉ [id] by simpa using hne)]
    | getMut key f =>
      by_cases hid : id = key
      · simp only [step, PtrMapCell.getMut, if_pos hid, Option.some.injEq] at h
        rw [← h]; exact canonical_one _ _
      · simp only [step, PtrMapCell.getMut, if_neg hid, Option.some.injEq] at h
        rw [← h]; exact hm
  | many hm' =>
    have h2 := (canonical_many_iff hm').mp hm
    cases op with
    | insert key val =>
      cases h
      exact (canonical_many_iff _).mpr (le_trans h2 (length_keys_le_insert _ _ _))
    | getMut key f =>
      simp only [step, PtrMapCell.getMut] at h
      cases hl : hm'.lookup key with
      | none => simp only [hl, Option.map_none'] at h; cases h; exact hm
      | some v =>
        simp only [hl, Option.map_some'] at h
        cases h
        exact (canonical_many_iff _).mpr (le_trans h2 (length_keys_le_insert _ _ _))

/-- PtrMapCell canonical along debug runs: from a canonical representation (`new()` and
`with_one` are), every run of the debug build that does not panic ends in a canonical
one, where `one()` succeeds exactly when the cell holds one key. -/
theorem ptrMapCell_debug_runs_stay_canonical (m : PtrMap K V) (ops : List (Op K V))
    (hm : Canonical m) {m' : PtrMap K V} (h : runCalls true m ops = some m') :
    Canonical m' ∧ ((PtrMapCell.one m').isSome ↔ (toAList m').keys.length = 1) := by
  have hc : Canonical m' := by
    induction ops generalizing m with
    | nil => cases h; exact hm
    | cons op ops ih =>
      simp only [runCalls, Option.bind_eq_some] at h
      obtain ⟨m₁, h₁, h₂⟩ := h
      exact ih m₁ (canonical_step hm h₁) h₂
  exact ⟨hc, one_isSome_iff hc⟩

/-- The same three calls: the debug run ends in `Many` with two keys. -/
theorem ptrMapCell_debug_runs_stay_canonical_three_calls :
    Canonical (PtrMapCell.new : PtrMap Nat Nat) ∧
    runCalls true (PtrMapCell.new : PtrMap Nat Nat) [.insert 1 10, .getMut 1 (· + 1), .insert 2 20] =
      some (.many (((∅ : AList fun _ : Nat => Nat).insert 1 11).insert 2 20)) ∧
    (Canonical (PtrMap.many (((∅ : AList fun _ : Nat => Nat).insert 1 11).insert 2 20)) ∧
      ((PtrMapCell.one (PtrMap.many (((∅ : AList fun _ : Nat => Nat).insert 1 11).insert 2 20))).isSome ↔
        (toAList (PtrMap.many (((∅ : AList fun _ : Nat => Nat).insert 1 11).insert 2 20))).keys.length
          = 1)) :=
  have hrun : runCalls true (PtrMapCell.new : PtrMap Nat Nat)
      [.insert 1 10, .getMut 1 (· + 1), .insert 2 20] =
        some (.many (((∅ : AList fun _ : Nat => Nat).insert 1 11).insert 2 20)) := rfl
  ⟨canonical_empty, hrun, ptrMapCell_debug_runs_stay_canonical _ _ canonical_empty hrun⟩

end Hyperx.Analysis.PtrMapRuns
