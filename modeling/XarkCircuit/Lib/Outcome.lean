import XarkCircuit.Lib.Instances
import Mathlib.Logic.Basic
import Mathlib.Data.List.Basic
import Mathlib.Order.Nat

/-!
Computations that return, panic, or are cut off.

* A recursion that may not end is run with a bound on its depth; `Halt.outOfFuel` says that the
  bound was reached, `Halt.panic` that the program panicked.
* `Fueled f`: a larger bound never changes a result. `Fueled.stable` is the form in which it is
  used: what one bound finds, every larger bound finds.
* `concatM f l` runs `f` on the elements of `l` in order and concatenates what they emit.
-/

/-- Why a computation returned nothing. -/
inductive Halt
  | panic
  | outOfFuel
deriving DecidableEq, Repr

/-- A value, or the reason why there is none. -/
abbrev Outcome := Except Halt

namespace Outcome

universe u

variable {α β γ : Type u}

/-- `Option::unwrap`, and indexing: `none` panics. -/
def orPanic : Option α → Outcome α
  | none => .error .panic
  | some a => .ok a

@[simp] lemma orPanic_none : orPanic (none : Option α) = .error .panic := rfl

@[simp] lemma orPanic_some (a : α) : orPanic (some a) = .ok a := rfl

@[simp] lemma ok_bind (a : α) (f : α → Outcome β) : (Except.ok a : Outcome α) >>= f = f a := rfl

@[simp] lemma error_bind (e : Halt) (f : α → Outcome β) :
    (Except.error e : Outcome α) >>= f = .error e := rfl

@[simp] lemma map_ok (f : α → β) (a : α) : f <$> (Except.ok a : Outcome α) = .ok (f a) := rfl

@[simp] lemma map_error (f : α → β) (e : Halt) :
    f <$> (Except.error e : Outcome α) = .error e := rfl

@[simp] lemma pure_eq_ok (a : α) : (pure a : Outcome α) = .ok a := rfl

@[simp] lemma bind_ok (x : Outcome α) : (x >>= fun a => .ok a) = x := by cases x <;> rfl

/-- A sequence returns exactly when both of its parts do. -/
lemma bind_eq_ok {x : Outcome α} {f : α → Outcome β} {b : β} :
    x >>= f = .ok b ↔ ∃ a, x = .ok a ∧ f a = .ok b := by
  cases x with
  | error e => simp
  | ok a => simp

lemma map_eq_ok {x : Outcome α} {f : α → β} {b : β} :
    f <$> x = .ok b ↔ ∃ a, x = .ok a ∧ f a = b := by
  cases x with
  | error e => simp
  | ok a => simp

/-! ### Emitting in order -/

/-- Run `f` on each element in order and concatenate what is emitted. -/
def concatM (f : α → Outcome (List β)) : List α → Outcome (List β)
  | [] => .ok []
  | a :: l => do
      let bs ← f a
      let rest ← concatM f l
      return bs ++ rest

@[simp] lemma concatM_nil (f : α → Outcome (List β)) : concatM f [] = .ok [] := rfl

lemma concatM_cons (f : α → Outcome (List β)) (a : α) (l : List α) :
    concatM f (a :: l) = f a >>= fun bs => concatM f l >>= fun rest => .ok (bs ++ rest) := rfl

lemma concatM_congr {f g : α → Outcome (List β)} {l : List α} (h : ∀ a ∈ l, f a = g a) :
    concatM f l = concatM g l := by
  induction l with
  | nil => rfl
  | cons a l ih =>
      rw [concatM_cons, concatM_cons, h a List.mem_cons_self,
        ih fun b hb => h b (List.mem_cons_of_mem _ hb)]

lemma concatM_map (f : α → Outcome (List β)) (g : γ → α) (l : List γ) :
    concatM f (l.map g) = concatM (fun a => f (g a)) l := by
  induction l with
  | nil => rfl
  | cons a l ih => rw [List.map_cons, concatM_cons, concatM_cons, ih]

lemma concatM_singleton (f : α → Outcome (List β)) (a : α) : concatM f [a] = f a := by
  rw [concatM_cons]
  cases f a <;> simp

/-- Emitting in order, written as a loop that appends. -/
lemma foldlM_emit (f : α → Outcome (List β)) (l : List α) (acc : List β) :
    l.foldlM (fun acc a => f a >>= fun bs => .ok (acc ++ bs)) acc
      = concatM f l >>= fun bs => .ok (acc ++ bs) := by
  induction l generalizing acc with
  | nil => simp [List.foldlM_nil]
  | cons a l ih =>
      rw [List.foldlM_cons, concatM_cons]
      cases f a with
      | error e => rfl
      | ok bs =>
          rw [ok_bind, ok_bind, ok_bind, ih]
          cases concatM f l with
          | error e => rfl
          | ok cs => rw [ok_bind, ok_bind, ok_bind, List.append_assoc]

/-- Emitting is natural in what is emitted. -/
lemma map_concatM (g : β → γ) (f : α → Outcome (List β)) (l : List α) :
    List.map g <$> concatM f l = concatM (fun a => List.map g <$> f a) l := by
  induction l with
  | nil => rfl
  | cons a l ih =>
      rw [concatM_cons, concatM_cons, ← ih]
      cases f a with
      | error e => rfl
      | ok bs => cases concatM f l <;> simp

/-- When every element emits, so does the list. -/
lemma concatM_eq_ok {f : α → Outcome (List β)} {g : α → List β} {l : List α}
    (h : ∀ a ∈ l, f a = .ok (g a)) : concatM f l = .ok (l.flatMap g) := by
  induction l with
  | nil => rfl
  | cons a l ih =>
      rw [concatM_cons, h a List.mem_cons_self, ih fun b hb => h b (List.mem_cons_of_mem _ hb)]
      rfl

/-- An emitted element comes from one of the elements run. -/
lemma mem_of_concatM {f : α → Outcome (List β)} {l : List α} {bs : List β}
    (h : concatM f l = .ok bs) {b : β} (hb : b ∈ bs) :
    ∃ a ∈ l, ∃ cs, f a = .ok cs ∧ b ∈ cs := by
  induction l generalizing bs with
  | nil =>
      obtain rfl := Except.ok.inj h
      exact absurd hb List.not_mem_nil
  | cons a l ih =>
      rw [concatM_cons, bind_eq_ok] at h
      obtain ⟨cs, hcs, h⟩ := h
      obtain ⟨rest, hrest, h⟩ := bind_eq_ok.mp h
      obtain rfl := Except.ok.inj h
      rcases List.mem_append.mp hb with hb | hb
      · exact ⟨a, List.mem_cons_self, cs, hcs, hb⟩
      · obtain ⟨a', ha', h'⟩ := ih hrest hb
        exact ⟨a', List.mem_cons_of_mem _ ha', h'⟩

/-! ### Emitting with any errors -/

section Emit

variable {ε : Type u}

/-- Run `f` on each element in order and concatenate what is emitted; the first error stops the run. -/
def emitAll (f : α → Except ε (List β)) : List α → Except ε (List β)
  | [] => .ok []
  | a :: l =>
    match f a with
    | .error e => .error e
    | .ok bs =>
      match emitAll f l with
      | .error e => .error e
      | .ok rest => .ok (bs ++ rest)

end Emit

/-! ### Loops -/

/-- What every step of a loop keeps, the loop keeps; and every element has its turn. -/
lemma foldlM_rel {R : β → β → Prop} (hrefl : ∀ b, R b b)
    (htrans : ∀ {b₁ b₂ b₃}, R b₁ b₂ → R b₂ b₃ → R b₁ b₃) {f : β → α → Outcome β} {l : List α}
    {b b' : β} (hstep : ∀ b₁ a b₂, a ∈ l → R b b₁ → f b₁ a = .ok b₂ → R b₁ b₂)
    (h : l.foldlM f b = .ok b') :
    R b b' ∧ ∀ a ∈ l, ∃ b₁ b₂, R b b₁ ∧ f b₁ a = .ok b₂ ∧ R b₂ b' := by
  induction l generalizing b with
  | nil =>
      obtain rfl := Except.ok.inj h
      exact ⟨hrefl _, fun a ha => absurd ha List.not_mem_nil⟩
  | cons a l ih =>
      rw [List.foldlM_cons] at h
      obtain ⟨b₁, hb₁, h⟩ := bind_eq_ok.mp h
      have hR : R b b₁ := hstep b a b₁ List.mem_cons_self (hrefl b) hb₁
      obtain ⟨hl, hall⟩ := ih (fun b₂ a' b₃ ha' h₂ => hstep b₂ a' b₃
        (List.mem_cons_of_mem _ ha') (htrans hR h₂)) h
      refine ⟨htrans hR hl, fun a' ha' => ?_⟩
      rcases List.mem_cons.mp ha' with rfl | ha'
      · exact ⟨b, b₁, hrefl b, hb₁, hl⟩
      · obtain ⟨b₂, b₃, h₂, hf, h₃⟩ := hall a' ha'
        exact ⟨b₂, b₃, htrans hR h₂, hf, h₃⟩

/-! ### Bounds on the depth -/

/-- `y` agrees with `x` unless `x` was cut off. -/
def Refined (x y : Outcome α) : Prop := x = .error .outOfFuel ∨ x = y

lemma Refined.refl (x : Outcome α) : Refined x x := Or.inr rfl

lemma Refined.bind {x y : Outcome α} {f g : α → Outcome β} (h : Refined x y)
    (hf : ∀ a, Refined (f a) (g a)) : Refined (x >>= f) (y >>= g) := by
  rcases h with rfl | rfl
  · exact Or.inl rfl
  · cases x with
    | error e => exact Or.inr rfl
    | ok a => exact hf a

lemma Refined.concatM {f g : α → Outcome (List β)} (h : ∀ a, Refined (f a) (g a)) (l : List α) :
    Refined (concatM f l) (concatM g l) := by
  induction l with
  | nil => exact Refined.refl _
  | cons a l ih => exact (h a).bind fun bs => ih.bind fun rest => Refined.refl _

lemma Refined.foldlM {f g : β → α → Outcome β} (h : ∀ b a, Refined (f b a) (g b a)) (l : List α)
    (b : β) : Refined (l.foldlM f b) (l.foldlM g b) := by
  induction l generalizing b with
  | nil => exact Refined.refl _
  | cons a l ih =>
      rw [List.foldlM_cons, List.foldlM_cons]
      exact (h b a).bind ih

/-- A larger bound never changes a result. -/
def Fueled (f : ℕ → Outcome α) : Prop := ∀ n, Refined (f n) (f (n + 1))

/-- What one bound finds, every larger bound finds. -/
lemma Fueled.stable {f : ℕ → Outcome α} (h : Fueled f) {n m : ℕ} (hnm : n ≤ m)
    (hn : f n ≠ .error .outOfFuel) : f m = f n := by
  induction m, hnm using Nat.le_induction with
  | base => rfl
  | succ m _ ih =>
      rcases h m with he | he
      · exact absurd (ih ▸ he) hn
      · rw [← he, ih]

/-- What each element finds within some bound, all of them find within one bound. -/
lemma Fueled.exists_bound {f : α → ℕ → Outcome β} (h : ∀ a, Fueled (f a)) {l : List α}
    (hl : ∀ a ∈ l, ∃ n b, f a n = .ok b) : ∃ N, ∀ a ∈ l, ∃ b, ∀ n, N ≤ n → f a n = .ok b := by
  induction l with
  | nil => exact ⟨0, fun a ha => absurd ha List.not_mem_nil⟩
  | cons a l ih =>
      obtain ⟨n, b, hb⟩ := hl a List.mem_cons_self
      obtain ⟨N, hN⟩ := ih fun a' ha' => hl a' (List.mem_cons_of_mem _ ha')
      refine ⟨max n N, fun a' ha' => ?_⟩
      rcases List.mem_cons.mp ha' with rfl | ha'
      · refine ⟨b, fun m hm => ?_⟩
        rw [← hb]
        exact (h a').stable (by omega) (by rw [hb]; simp)
      · obtain ⟨b', hb'⟩ := hN a' ha'
        exact ⟨b', fun m hm => hb' m (by omega)⟩

/-! ### Ending -/

/-- Some bound is enough: the computation returns or panics. -/
def Ends (f : ℕ → Outcome α) : Prop := ∃ n, f n ≠ .error .outOfFuel

end Outcome
