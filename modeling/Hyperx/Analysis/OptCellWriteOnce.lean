import Hyperx.Model.Cell

/-!
# What `OptCell` keeps once it holds a value

A caller works on an `OptCell` with `set(val)` and with `get_mut()`, through whose
reference it may assign a new value. The check that makes the cell write-once is a
`debug_assert!` (cell.rs:19), so what survives depends on the build:

* in every build, a cell that holds a value never becomes empty again
  (`step_keeps_some`, `run_keeps_some`);
* with debug assertions, a `set` on a full cell panics before it writes
  (`set_full_panics`);
* without them, `set` stores its argument whatever the cell holds
  (`set_release_stores`), and in both builds a write through `get_mut` replaces the
  value in place (`getMut_write_replaces`): the value is not write-once.
-/

set_option autoImplicit false

namespace Hyperx.Analysis.OptCellWriteOnce

open Hyperx.Model

variable {T : Type}

/-- A caller's operation on one cell: `set(val)`, or `get_mut()` followed by an
assignment through the reference of `f` applied to the value it points to. -/
inductive OptCellOp (T : Type) where
  | set (val : T)
  | getMut (f : T → T)

/-- One operation; `none` is a panic. -/
def step (d : Bool) (c : OptCell T) : OptCellOp T → Option (OptCell T)
  | .set val => c.set d val
  | .getMut f => c.getMut.map fun (v, wr) => wr (f v)

/-- A sequence of operations on one cell, `none` once one panics. -/
def run (d : Bool) (c : OptCell T) : List (OptCellOp T) → Option (OptCell T)
  | [] => some c
  | op :: ops => (step d c op).bind fun c' => run d c' ops

/-- `set` either panics or leaves its argument in the cell. -/
theorem deref_set {d : Bool} {c c' : OptCell T} {val : T} (h : c.set d val = some c') :
    c'.deref = some val := by
  simp only [OptCell.set] at h
  split at h
  · cases h
  · cases h; rfl

/-- With debug assertions, `set` on a full cell panics. -/
theorem set_full_panics {c : OptCell T} (hc : c.deref.isSome) (val : T) :
    c.set true val = none := by
  simp [OptCell.set, show c.val.isSome from hc]

/-- Without debug assertions, `set` stores its argument whatever the cell holds. -/
theorem set_release_stores (c : OptCell T) (val : T) :
    ∃ c', c.set false val = some c' ∧ c'.deref = some val :=
  ⟨_, rfl, rfl⟩

/-- `get_mut` on a full cell hands out the value it holds, and a write through the
reference replaces it. -/
theorem getMut_write_replaces {c : OptCell T} {v : T} (hv : c.deref = some v) :
    ∃ wr, c.getMut = some (v, wr) ∧ ∀ w, (wr w).deref = some w :=
  ⟨_, by simp [OptCell.getMut, show c.val = some v from hv], fun _ => rfl⟩

/-- Step lemma: no operation empties a full cell. -/
theorem step_keeps_some {d : Bool} {c c' : OptCell T} {op : OptCellOp T}
    (h : step d c op = some c') (hc : c.deref.isSome) : c'.deref.isSome := by
  cases op with
  | set val => simp [deref_set h]
  | getMut f =>
    obtain ⟨v, hv⟩ := Option.isSome_iff_exists.mp hc
    simp only [step, OptCell.getMut, show c.val = some v from hv, Option.map_some',
      Option.some.injEq] at h
    subst h; rfl

/-- Run lemma: no sequence of operations empties a full cell. -/
theorem run_keeps_some (d : Bool) (ops : List (OptCellOp T)) :
    ∀ {c c' : OptCell T}, run d c ops = some c' → c.deref.isSome → c'.deref.isSome := by
  induction ops with
  | nil => intro c c' h hc; cases h; exact hc
  | cons op ops ih =>
    intro c c' h hc
    cases hs : step d c op with
    | none => simp [run, hs] at h
    | some c₁ =>
      simp only [run, hs, Option.some_bind] at h
      exact ih h (step_keeps_some hs hc)

/-- Once `deref` yields `Some(v)`, a later `deref` yields `Some(v)`: false without
debug assertions, where a second `set` replaces the value. -/
theorem optCell_deref_not_write_once :
    ¬ ∀ (d : Bool) (init : Option Nat) (ops₁ ops₂ : List (OptCellOp Nat))
        (c₁ c₂ : OptCell Nat) (v : Nat),
      run d (OptCell.new init) ops₁ = some c₁ → run d c₁ ops₂ = some c₂ →
      c₁.deref = some v → c₂.deref = some v := by
  intro h
  have := h false none [.set 1] [.set 2] ⟨some 1⟩ ⟨some 2⟩ 1 rfl rfl rfl
  cases this

/-- In every build a cell that holds a value never becomes empty again. With debug
assertions a `set` on a full cell panics before it writes; without them `set` stores its
argument whatever the cell holds; and in both builds `get_mut` hands out the value held,
which a write through the reference replaces. -/
theorem optCell_keeps_value_along_runs :
    (∀ (d : Bool) (init : Option T) (ops₁ ops₂ : List (OptCellOp T)) (c₁ c₂ : OptCell T),
      run d (OptCell.new init) ops₁ = some c₁ → run d c₁ ops₂ = some c₂ →
      c₁.deref.isSome → c₂.deref.isSome) ∧
    (∀ (c : OptCell T) (val : T), c.deref.isSome → c.set true val = none) ∧
    (∀ (c : OptCell T) (val : T), ∃ c', c.set false val = some c' ∧ c'.deref = some val) ∧
    ∀ (c : OptCell T) (v : T), c.deref = some v →
      ∃ wr, c.getMut = some (v, wr) ∧ ∀ w, (wr w).deref = some w :=
  ⟨fun d _ _ ops₂ _ _ _ h₂ hc => run_keeps_some d ops₂ h₂ hc,
    fun _ val hc => set_full_panics hc val, set_release_stores,
    fun _ _ hv => getMut_write_replaces hv⟩

end Hyperx.Analysis.OptCellWriteOnce
