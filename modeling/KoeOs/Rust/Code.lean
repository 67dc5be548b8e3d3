/-
# `KoeOs.Rust.Code` — Rust code as state passing, with panics

The kernel is built with `cargo build`, so `debug_assert!` is checked and
arithmetic that leaves its machine type panics.  A function of the source is
modelled as a `Code σ α`: it takes a state `σ`, and either returns a value and
the next state, or stops at a `Panic` with the state it had reached.

    x.run s = .ok a s'       the code returned `a` in state `s'`
    x.run s = .error p s'    the code panicked with `p`; `s'` is what memory holds then

The state at a panic is kept because "the assertion fires before anything is
written" is a statement about it.

The module has the bind rules the proofs peel computations apart with, and
`zoom`, which runs code of a field of the state.
-/
import Mathlib.Data.Nat.Notation

namespace Koe

/-- The ways the modelled code can stop without returning. -/
inductive Panic where
  /-- `assert!` and `debug_assert!`, with the message where there is one. -/
  | assertion (msg : String)
  /-- `Option::expect`, `Result::expect`. -/
  | expectation (msg : String)
  /-- `unreachable!`. -/
  | unreachable (msg : String)
  /-- `unwrap` of `None`. -/
  | unwrapped
  /-- Arithmetic that leaves the machine type. -/
  | overflow
  /-- A slice or array index out of range. -/
  | bounds
  /-- A push or insert into a full `ArrayVec`. -/
  | capacity
  /-- A broken contract of an unsafe function: what follows is not defined. -/
  | undefinedBehaviour
  /-- The bound a loop is modelled with was too small; no run ends so. -/
  | outOfFuel
  deriving DecidableEq, Repr

/-- Results can be compared, so that a run on given values can be checked. -/
instance decidableEqResult {ε σ α : Type} [DecidableEq ε] [DecidableEq σ] [DecidableEq α] :
    DecidableEq (EStateM.Result ε σ α)
  | .ok a s, .ok b t => decidable_of_iff (a = b ∧ s = t) (by simp)
  | .error p s, .error q t => decidable_of_iff (p = q ∧ s = t) (by simp)
  | .ok _ _, .error _ _ => isFalse nofun
  | .error _ _, .ok _ _ => isFalse nofun

/-- Code over the state `σ` that returns an `α`. -/
abbrev Code (σ α : Type) := EStateM Panic σ α

namespace Code

variable {σ τ α β : Type}

/-- `assert!(b, msg)`. -/
def assert (b : Bool) (msg : String) : Code σ Unit :=
  if b then pure () else throw (.assertion msg)

/-- `opt.expect(msg)`. -/
def expect (o : Option α) (msg : String) : Code σ α :=
  match o with
  | some a => pure a
  | none => throw (.expectation msg)

/-- Run code of a part of the state. -/
def zoom (view : σ → τ) (put : σ → τ → σ) (x : Code τ α) : Code σ α := fun s =>
  match x.run (view s) with
  | .ok a t => .ok a (put s t)
  | .error p t => .error p (put s t)

/-- Run code on a value the caller owns; its own state is not touched. -/
def locally (t : τ) (x : Code τ α) : Code σ (α × τ) := fun s =>
  match x.run t with
  | .ok a t => .ok (a, t) s
  | .error p _ => .error p s

/-! ## One step of a computation -/

@[simp] theorem run_throw (p : Panic) (s : σ) : (throw p : Code σ α).run s = .error p s := rfl

theorem bind_ok {x : Code σ α} {f : α → Code σ β} {s s' : σ} {a : α}
    (h : x.run s = .ok a s') : (x >>= f).run s = (f a).run s' := by
  rw [EStateM.run_bind, h]

theorem bind_error {x : Code σ α} {f : α → Code σ β} {s s' : σ} {p : Panic}
    (h : x.run s = .error p s') : (x >>= f).run s = .error p s' := by
  rw [EStateM.run_bind, h]

/-- A bind that returned: both halves returned. -/
theorem bind_eq_ok {x : Code σ α} {f : α → Code σ β} {s s'' : σ} {b : β} :
    (x >>= f).run s = .ok b s'' ↔ ∃ a s', x.run s = .ok a s' ∧ (f a).run s' = .ok b s'' := by
  constructor
  · intro h
    cases hx : x.run s with
    | ok a s' => exact ⟨a, s', rfl, by rw [bind_ok hx] at h; exact h⟩
    | error p s' => rw [bind_error hx] at h; exact nomatch h
  · rintro ⟨a, s', hx, hf⟩
    rw [bind_ok hx]; exact hf

@[simp] theorem get_bind (f : σ → Code σ β) (s : σ) :
    ((get : Code σ σ) >>= f).run s = (f s).run s := rfl

/-- A loop, by its last round. -/
theorem forM_concat (f : β → Code σ Unit) (l : List β) (b : β) :
    (l ++ [b]).forM f = l.forM f >>= fun _ => f b := by
  simp only [List.forM_eq_forM, List.forM_append, List.forM_cons, List.forM_nil, bind_pure_unit]

/-- A loop that returns in every round: what holds after `i` rounds is carried to the end. -/
theorem forM_run {l : List β} {f : β → Code σ Unit} {I : ℕ → σ → Prop}
    (step : ∀ i (h : i < l.length) s, I i s → ∃ s', (f l[i]).run s = .ok () s' ∧ I (i + 1) s')
    {s : σ} (h : I 0 s) : ∃ s', (l.forM f).run s = .ok () s' ∧ I l.length s' := by
  induction l generalizing I s with
  | nil => exact ⟨s, rfl, h⟩
  | cons b l ih =>
      obtain ⟨s₁, hrun, h₁⟩ := step 0 (Nat.succ_pos _) s h
      obtain ⟨s', hrest, h'⟩ := ih (I := fun i => I (i + 1))
        (fun i hi s => step (i + 1) (Nat.succ_lt_succ hi) s) h₁
      refine ⟨s', ?_, h'⟩
      rw [List.forM_eq_forM, List.forM_cons]
      exact (bind_ok hrun).trans hrest

/-- A loop whose rounds are steps of a function on the states of one kind: the whole loop is the
steps one after the other. -/
theorem forM_foldl_run {τ : Type} {l : List β} {f : β → Code σ Unit} {g : τ → β → τ} {e : τ → σ}
    (step : ∀ b ∈ l, ∀ t, (f b).run (e t) = .ok () (e (g t b))) (t : τ) :
    (l.forM f).run (e t) = .ok () (e (l.foldl g t)) := by
  induction l generalizing t with
  | nil => rfl
  | cons b l ih =>
      rw [List.forM_eq_forM, List.forM_cons]
      exact (bind_ok (step b List.mem_cons_self t)).trans
        (ih (fun b' hb' => step b' (List.mem_cons_of_mem b hb')) (g t b))

theorem forM_range_run {n : ℕ} {f : ℕ → Code σ Unit} {I : ℕ → σ → Prop}
    (step : ∀ i < n, ∀ s, I i s → ∃ s', (f i).run s = .ok () s' ∧ I (i + 1) s')
    {s : σ} (h : I 0 s) : ∃ s', ((List.range n).forM f).run s = .ok () s' ∧ I n s' := by
  have hloop := forM_run (l := List.range n) (f := f) (I := I)
    (fun i hi s hs => by simpa using step i (by simpa using hi) s hs) h
  rwa [List.length_range] at hloop

theorem forM_finRange_run {n : ℕ} {f : Fin n → Code σ Unit} {I : ℕ → σ → Prop}
    (step : ∀ (i : Fin n) (s : σ), I i s → ∃ s', (f i).run s = .ok () s' ∧ I (i + 1) s')
    {s : σ} (h : I 0 s) : ∃ s', ((List.finRange n).forM f).run s = .ok () s' ∧ I n s' := by
  have hloop := forM_run (l := List.finRange n) (f := f) (I := I)
    (fun i hi s hs => by simpa using step ⟨i, by simpa using hi⟩ s hs) h
  rwa [List.length_finRange] at hloop

/-! ## Assertions -/

@[simp] theorem assert_true (msg : String) (s : σ) : (assert true msg).run s = .ok () s := rfl

@[simp] theorem assert_false (msg : String) (s : σ) :
    (assert false msg).run s = .error (.assertion msg) s := rfl

theorem assert_of {b : Bool} (h : b = true) (msg : String) (s : σ) :
    (assert b msg).run s = .ok () s := by
  rw [h, assert_true]

theorem assert_eq_ok {b : Bool} {msg : String} {s s' : σ} {u : Unit} :
    (assert b msg).run s = .ok u s' ↔ b = true ∧ s = s' := by
  cases b with
  | false => simp
  | true => simp [eq_comm]

@[simp] theorem expect_some (a : α) (msg : String) (s : σ) :
    (expect (some a) msg).run s = .ok a s := rfl

@[simp] theorem expect_none (msg : String) (s : σ) :
    (expect none msg : Code σ α).run s = .error (.expectation msg) s := rfl

theorem expect_eq_ok {o : Option α} {msg : String} {a : α} {s s' : σ} :
    (expect o msg).run s = .ok a s' ↔ o = some a ∧ s = s' := by
  cases o with
  | none => simp
  | some b => simp [eq_comm]

/-! ## Zooming -/

variable {view : σ → τ} {put : σ → τ → σ} {x : Code τ α} {s : σ}

theorem zoom_ok {a : α} {t : τ} (h : x.run (view s) = .ok a t) :
    (zoom view put x).run s = .ok a (put s t) := by
  simp only [zoom, EStateM.run] at h ⊢
  rw [h]

theorem zoom_error {p : Panic} {t : τ} (h : x.run (view s) = .error p t) :
    (zoom view put x).run s = .error p (put s t) := by
  simp only [zoom, EStateM.run] at h ⊢
  rw [h]

theorem zoom_congr {y : Code τ α} (h : x.run (view s) = y.run (view s)) :
    (zoom view put x).run s = (zoom view put y).run s := by
  simp only [zoom, EStateM.run] at h ⊢
  rw [h]

theorem zoom_eq_ok {a : α} {s' : σ} :
    (zoom view put x).run s = .ok a s' ↔ ∃ t, x.run (view s) = .ok a t ∧ s' = put s t := by
  cases hx : x.run (view s) with
  | ok b t =>
      rw [zoom_ok hx]
      constructor
      · intro h; cases h; exact ⟨t, rfl, rfl⟩
      · rintro ⟨t', ht, rfl⟩; cases ht; rfl
  | error p t => rw [zoom_error hx]; simp

/-- What the code returns. -/
def value (x : Code σ α) (s : σ) : Option α :=
  match x.run s with
  | .ok a _ => some a
  | .error _ _ => none

theorem exists_run_of_value {x : Code σ α} {s : σ} {a : α} (h : x.value s = some a) :
    ∃ s', x.run s = .ok a s' := by
  rw [value] at h
  split at h
  · rename_i b s' hrun
    cases h
    exact ⟨s', hrun⟩
  · exact nomatch h

/-- The state the code stops in. -/
def final (x : Code σ α) (s : σ) : σ :=
  match x.run s with
  | .ok _ t => t
  | .error _ t => t

theorem run_of_value {x : Code σ α} {s : σ} {a : α} (h : x.value s = some a) :
    x.run s = .ok a (x.final s) := by
  obtain ⟨t, ht⟩ := exists_run_of_value h
  rw [final, ht]

theorem locally_ok {a : α} {t t' : τ} (h : x.run t = .ok a t') :
    (locally t x : Code σ (α × τ)).run s = .ok (a, t') s := by
  simp only [locally, EStateM.run] at h ⊢
  rw [h]

theorem locally_eq_ok {a : α} {t t' : τ} {s' : σ} :
    (locally t x : Code σ (α × τ)).run s = .ok (a, t') s' ↔ x.run t = .ok a t' ∧ s' = s := by
  simp only [locally, EStateM.run]
  cases x t with
  | ok b u => simp [eq_comm, and_assoc]
  | error p u => simp

/-! ## Invariants

`Preserves I x` is the rule of invariants for code that returns: what holds before
`x` holds after it.  There is one lemma for each way to build code. -/

/-- Whenever `x` returns, it keeps `I`. -/
def Preserves (I : σ → Prop) (x : Code σ α) : Prop :=
  ∀ (s : σ) (a : α) (t : σ), I s → x.run s = .ok a t → I t

variable {I : σ → Prop}

theorem preserves_pure (a : α) : Preserves I (pure a : Code σ α) := fun _ _ _ hs h => by
  cases h; exact hs

theorem preserves_throw (p : Panic) : Preserves I (throw p : Code σ α) :=
  fun _ _ _ _ h => nomatch h

theorem Preserves.bind {x : Code σ α} {f : α → Code σ β} (hx : Preserves I x)
    (hf : ∀ a, Preserves I (f a)) : Preserves I (x >>= f) := fun s b t hs h => by
  obtain ⟨a, s', hrun, hrest⟩ := bind_eq_ok.mp h
  exact hf a s' b t (hx s a s' hs hrun) hrest

/-- The rest may use that it runs from the state it was given. -/
theorem preserves_get_bind {f : σ → Code σ β}
    (hf : ∀ s b t, I s → (f s).run s = .ok b t → I t) :
    Preserves I ((get : Code σ σ) >>= f) := fun s b t hs h => by
  rw [get_bind] at h
  exact hf s b t hs h

theorem preserves_modify {f : σ → σ} (hf : ∀ s, I s → I (f s)) :
    Preserves I (modify f : Code σ PUnit) := fun _ _ _ hs h => by
  cases h; exact hf _ hs

theorem preserves_assert (b : Bool) (msg : String) : Preserves I (assert b msg : Code σ Unit) :=
  fun _ _ _ hs h => (assert_eq_ok.mp h).2 ▸ hs

theorem preserves_expect (o : Option α) (msg : String) : Preserves I (expect o msg : Code σ α) :=
  fun _ _ _ hs h => (expect_eq_ok.mp h).2 ▸ hs

theorem preserves_ite {c : Prop} [Decidable c] {x y : Code σ α} (hx : Preserves I x)
    (hy : Preserves I y) : Preserves I (if c then x else y) := by
  split
  · exact hx
  · exact hy

/-- A part that keeps `J`, where `I` asks no more of the part than `J`. -/
theorem Preserves.zoom {J : τ → Prop} (hx : Preserves J x) (hview : ∀ s, I s → J (view s))
    (hput : ∀ s t, I s → J t → I (put s t)) : Preserves I (zoom view put x) := fun s a _ hs h => by
  obtain ⟨t, hrun, rfl⟩ := zoom_eq_ok.mp h
  exact hput s t hs (hx _ a t (hview s hs) hrun)

/-! ## Termination

The bound of a loop must not show.  `Ends x s` says that it does not, when `x` runs from
`s`. -/

/-- From `s`, `x` does not stop for want of rounds. -/
def Ends (x : Code σ α) (s : σ) : Prop := ∀ t, x.run s ≠ .error .outOfFuel t

theorem ends_of_ok {x : Code σ α} {s t : σ} {a : α} (h : x.run s = .ok a t) : Ends x s :=
  fun _ he => nomatch h.symm.trans he

theorem ends_throw {p : Panic} (h : p ≠ .outOfFuel) (s : σ) : Ends (throw p : Code σ α) s := by
  intro t he
  cases he
  exact h rfl

theorem Ends.bind {x : Code σ α} {f : α → Code σ β} {s : σ} (hx : Ends x s)
    (hf : ∀ a t, x.run s = .ok a t → Ends (f a) t) : Ends (x >>= f) s := by
  intro t he
  cases hrun : x.run s with
  | ok a s' => rw [bind_ok hrun] at he; exact hf a s' hrun t he
  | error p s' =>
      rw [bind_error hrun] at he
      cases he
      exact hx _ hrun

theorem ends_assert (b : Bool) (msg : String) (s : σ) : Ends (assert b msg) s := by
  cases b with
  | false => exact ends_throw (by simp) s
  | true => exact ends_of_ok rfl

theorem ends_ite {c : Prop} [Decidable c] {x y : Code σ α} {s : σ} (hx : Ends x s)
    (hy : Ends y s) : Ends (if c then x else y) s := by
  split
  · exact hx
  · exact hy

theorem Ends.zoom {x : Code τ α} {view : σ → τ} {put : σ → τ → σ} {s : σ}
    (hx : Ends x (view s)) : Ends (zoom view put x) s := by
  intro t he
  cases hrun : x.run (view s) with
  | ok a t' => rw [zoom_ok hrun] at he; exact nomatch he
  | error p t' =>
      rw [zoom_error hrun] at he
      cases he
      exact hx _ hrun

end Code

end Koe
