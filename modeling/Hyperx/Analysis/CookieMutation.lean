import Hyperx.Analysis.CookieEquality

/-!
# `Cookie` under any sequence of `set` and `append`

A program builds a `Cookie` by calls of `set(key, value)`, which removes every pair of the
name and pushes the new one (cookie.rs:57-66), and `append(key, value)`, which pushes the
pair even when the name is there (cookie.rs:81-87). Here a run is any sequence of both,
on any names.

Name by name, a cookie is a log of values: the values it holds under the name, in
insertion order (`valuesOf`). A `set` of the name leaves one value in the log, an
`append` adds one at its end, and a call on another name leaves it as it is (`logStep`).
Every run keeps each name's log exactly as that program computes it, and `get` reads the
first value of the log (`cookie_calls_follow_name_logs`).

Names are pairwise distinct exactly when every log holds at most one value
(`distinct_iff`). So a run from such a cookie keeps them distinct as long as each of its
`append`s adds a name the cookie does not hold yet, and on the cookies such runs build
`==` holds exactly when every name has the same log
(`cookie_fresh_runs_eq_iff_logs`). This is where the repeated-name cookies, on which `==`
is neither reflexive nor symmetric, are kept out.
-/

set_option autoImplicit false

namespace Hyperx.Analysis.CookieMutation

open Hyperx.Model Hyperx.Analysis.CookieEquality

/-! ## Runs of calls -/

/-- A call that changes a cookie: `set(key, value)` or `append(key, value)`. -/
inductive Op where
  | set (key value : List Char)
  | append (key value : List Char)
  deriving DecidableEq, Repr

/-- One call. -/
def step (c : Cookie) : Op → Cookie
  | .set key value => c.set key value
  | .append key value => c.append key value

/-- A run of calls. -/
def runOps (c : Cookie) (ops : List Op) : Cookie := ops.foldl step c

/-! ## Each name's log -/

/-- The values a cookie holds under a name, in insertion order. -/
def valuesOf (c : Cookie) (key : List Char) : List (List Char) :=
  (c.iter.filter fun p => p.1 = key).map Prod.snd

/-- What one call does to the log of `key`. -/
def logStep (key : List Char) (log : List (List Char)) : Op → List (List Char)
  | .set k v => if k = key then [v] else log
  | .append k v => if k = key then log ++ [v] else log

/-- `set` leaves one value under its name and no other log changes. -/
theorem valuesOf_set (c : Cookie) (k v key : List Char) :
    valuesOf (c.set k v) key = if k = key then [v] else valuesOf c key := by
  by_cases h : k = key
  · subst h
    simp [valuesOf, Cookie.set, Cookie.iter, VecMap.iter, VecMap.removeAll, VecMap.append,
      List.filter_filter]
  · simp only [valuesOf, Cookie.set, Cookie.iter, VecMap.iter, VecMap.removeAll,
      VecMap.append, List.filter_append, List.filter_filter, if_neg h]
    simp [h]
    congr 1
    exact List.filter_congr fun p _ => by by_cases hp : p.1 = key <;> simp [hp, Ne.symm h]

/-- `append` adds its value at the end of its name's log and no other log changes. -/
theorem valuesOf_append (c : Cookie) (k v key : List Char) :
    valuesOf (c.append k v) key = if k = key then valuesOf c key ++ [v] else valuesOf c key := by
  by_cases h : k = key <;>
    simp [valuesOf, Cookie.append, Cookie.iter, VecMap.iter, VecMap.append, h]

/-- Step lemma: one call changes each name's log as `logStep` says. -/
theorem valuesOf_step (c : Cookie) (op : Op) (key : List Char) :
    valuesOf (step c op) key = logStep key (valuesOf c key) op := by
  cases op with
  | set k v => exact valuesOf_set c k v key
  | append k v => exact valuesOf_append c k v key

/-- The run lemma: every run keeps each name's log as `logStep` computes it. -/
theorem valuesOf_runOps (ops : List Op) (c : Cookie) (key : List Char) :
    valuesOf (runOps c ops) key = ops.foldl (logStep key) (valuesOf c key) := by
  induction ops generalizing c with
  | nil => rfl
  | cons op ops ih => simpa only [runOps, List.foldl_cons, valuesOf_step] using ih (step c op)

/-- `get` reads the first value of the name's log. -/
theorem get_eq_head?_valuesOf (c : Cookie) (key : List Char) :
    c.get key = (valuesOf c key).head? := by
  simp [Cookie.get, VecMap.get, valuesOf, Cookie.iter, VecMap.iter]

/-- Cookie name logs: along every run of `set` and `append` calls, on any names, the values a
cookie holds under each name are those of the log program, where `set` of the name leaves
only its value and `append` of the name adds its value at the end; `get` reads the first of
them. -/
theorem cookie_calls_follow_name_logs (c : Cookie) (ops : List Op) (key : List Char) :
    valuesOf (runOps c ops) key = ops.foldl (logStep key) (valuesOf c key) ∧
      (runOps c ops).get key = (ops.foldl (logStep key) (valuesOf c key)).head? :=
  ⟨valuesOf_runOps ops c key, by rw [get_eq_head?_valuesOf, valuesOf_runOps]⟩

/-! ## Distinct names -/

/-- The names of a cookie are pairwise distinct. -/
def Distinct (c : Cookie) : Prop := (c.iter.map Prod.fst).Nodup

instance (c : Cookie) : Decidable (Distinct c) :=
  inferInstanceAs (Decidable (List.Nodup _))

/-- Names are distinct exactly when every log holds at most one value. -/
theorem distinct_iff (c : Cookie) : Distinct c ↔ ∀ key, (valuesOf c key).length ≤ 1 := by
  simp only [Distinct, List.nodup_iff_count_le_one, List.count_eq_countP, List.countP_map]
  simp only [List.countP_eq_length_filter, valuesOf, List.length_map]
  rfl

/-- Whether each `append` of a run is of a name the cookie does not hold when it comes. -/
def appendsFresh (c : Cookie) : List Op → Bool
  | [] => true
  | .set k v :: ops => appendsFresh (c.set k v) ops
  | .append k v :: ops => (c.get k).isNone && appendsFresh (c.append k v) ops

/-- `set` keeps the names distinct. -/
theorem distinct_set {c : Cookie} (hc : Distinct c) (k v : List Char) : Distinct (c.set k v) := by
  rw [distinct_iff] at hc ⊢
  intro key
  rw [valuesOf_set]
  split
  · rfl
  · exact hc key

/-- `append` of a name the cookie does not hold keeps the names distinct. -/
theorem distinct_append {c : Cookie} (hc : Distinct c) {k : List Char} (hk : c.get k = none)
    (v : List Char) : Distinct (c.append k v) := by
  rw [get_eq_head?_valuesOf, List.head?_eq_none_iff] at hk
  rw [distinct_iff] at hc ⊢
  intro key
  rw [valuesOf_append]
  split
  · subst k; simp [hk]
  · exact hc key

/-- Run lemma: a run whose every `append` adds a fresh name keeps the names distinct. -/
theorem distinct_runOps (ops : List Op) (c : Cookie) (hc : Distinct c)
    (hf : appendsFresh c ops = true) : Distinct (runOps c ops) := by
  induction ops generalizing c with
  | nil => exact hc
  | cons op ops ih =>
    cases op with
    | set k v => exact ih (c.set k v) (distinct_set hc k v) hf
    | append k v =>
      simp only [appendsFresh, Bool.and_eq_true, Option.isNone_iff_eq_none] at hf
      exact ih (c.append k v) (distinct_append hc hf.1 v) hf.2

/-- On cookies with distinct names, `==` is equality of `get` for every name. -/
theorem eq_iff_get_of_distinct {c d : Cookie} (hc : Distinct c) (hd : Distinct d) :
    c.eq d = true ↔ ∀ k, c.get k = d.get k := by
  have mem_iff : ∀ {e : Cookie}, Distinct e → ∀ p, p ∈ e.iter ↔ e.get p.1 = some p.2 :=
    fun he _ => (get_eq_some_iff he).symm
  rw [eq_true_iff_perm hc hd, List.perm_ext_iff_of_nodup (hc.of_map _) (hd.of_map _)]
  constructor
  · intro hmem k
    exact Option.ext fun v => (mem_iff hc (k, v)).symm.trans ((hmem _).trans (mem_iff hd (k, v)))
  · intro hget p
    rw [mem_iff hc, mem_iff hd, hget]

/-- Two lists of at most one element are equal when their heads are. -/
theorem eq_of_head?_eq {α : Type} {l₁ l₂ : List α} (h₁ : l₁.length ≤ 1)
    (h₂ : l₂.length ≤ 1) :
    l₁.head? = l₂.head? ↔ l₁ = l₂ := by
  constructor
  · intro h
    rcases l₁ with _ | ⟨a, _ | ⟨_, _⟩⟩ <;>
      rcases l₂ with _ | ⟨b, _ | ⟨_, _⟩⟩ <;> simp_all
  · rintro rfl; rfl

/-- Cookie equality on fresh runs: from cookies with distinct names, runs whose every
`append` adds a name not yet held end with distinct names, and `==` between the cookies two
such runs build holds exactly when every name has the same log in both. -/
theorem cookie_fresh_runs_eq_iff_logs (c d : Cookie) (opsc opsd : List Op) (hc : Distinct c)
    (hd : Distinct d) (hfc : appendsFresh c opsc = true) (hfd : appendsFresh d opsd = true) :
    Distinct (runOps c opsc) ∧
      ((runOps c opsc).eq (runOps d opsd) = true ↔
        ∀ key, opsc.foldl (logStep key) (valuesOf c key) =
          opsd.foldl (logStep key) (valuesOf d key)) := by
  have hc' := distinct_runOps opsc c hc hfc
  have hd' := distinct_runOps opsd d hd hfd
  refine ⟨hc', ?_⟩
  rw [eq_iff_get_of_distinct hc' hd']
  refine forall_congr' fun key => ?_
  rw [get_eq_head?_valuesOf, get_eq_head?_valuesOf, ← valuesOf_runOps, ← valuesOf_runOps]
  exact eq_of_head?_eq ((distinct_iff _).mp hc' key) ((distinct_iff _).mp hd' key)

/-- `a=1` then a fresh `b=2`, and the same two calls the other way round. -/
theorem cookie_fresh_runs_eq_iff_logs_swapped :
    Distinct Cookie.new ∧ Distinct Cookie.new ∧
    appendsFresh Cookie.new [.set "a".toList "1".toList, .append "b".toList "2".toList] = true ∧
    appendsFresh Cookie.new [.append "b".toList "2".toList, .set "a".toList "1".toList] = true ∧
    (Distinct (runOps Cookie.new [.set "a".toList "1".toList, .append "b".toList "2".toList]) ∧
      ((runOps Cookie.new [.set "a".toList "1".toList, .append "b".toList "2".toList]).eq
          (runOps Cookie.new [.append "b".toList "2".toList, .set "a".toList "1".toList]) = true ↔
        ∀ key, [Op.set "a".toList "1".toList, .append "b".toList "2".toList].foldl
            (logStep key) (valuesOf Cookie.new key) =
          [Op.append "b".toList "2".toList, .set "a".toList "1".toList].foldl
            (logStep key) (valuesOf Cookie.new key))) :=
  ⟨by decide, by decide, by decide, by decide,
    cookie_fresh_runs_eq_iff_logs _ _ _ _ (by decide) (by decide) (by decide) (by decide)⟩

end Hyperx.Analysis.CookieMutation
