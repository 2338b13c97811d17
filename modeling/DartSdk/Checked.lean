import Mathlib.Control.Basic
import Mathlib.Data.List.Forall2
import Mathlib.Data.List.Infix

/-!
Computations that may stop: a failed ASSERT, an access out of bounds, a FATAL error and a loop or
recursion that outruns its steps are told apart, and loops come with their invariant rules. Programs
that change a state return under a postcondition when they do not stop and their result and final
state satisfy it. A buffer is the list of its cells, and a store that would leave it fails.
-/

namespace DartSdk.Checked

inductive Failure
  | assertion
  | outOfBounds
  | fatal
  | diverges
  deriving DecidableEq

abbrev Result (α : Type) := Except Failure α

/-- ASSERT. -/
def check (condition : Bool) : Result Unit :=
  if condition then .ok () else .error .assertion

@[simp] lemma ok_bind {α β : Type} (a : α) (f : α → Result β) : (Except.ok a >>= f) = f a := rfl

@[simp] lemma check_true : check true = .ok () := rfl

lemma check_of {condition : Bool} (h : condition = true) : check condition = .ok () := by
  rw [h, check_true]

section

variable {σ : Type}

/-- `for (i = 0; i < n; i++)`. -/
def forUp : ℕ → (ℕ → σ → Result σ) → σ → Result σ
  | 0, _, s => .ok s
  | n + 1, body, s => do
      let s ← forUp n body s
      body n s

/-- `for (i = n - 1; i >= 0; i--)`. -/
def forDown : ℕ → (ℕ → σ → Result σ) → σ → Result σ
  | 0, _, s => .ok s
  | n + 1, body, s => do
      let s ← body n s
      forDown n body s

section

variable (body : ℕ → σ → Result σ) (Inv : ℕ → σ → Prop) (n : ℕ)

/-- An invariant that every iteration carries one step up holds after the loop. -/
lemma forUp_spec {s : σ} (hstart : Inv 0 s)
    (hstep : ∀ i < n, ∀ s, Inv i s → ∃ s', body i s = .ok s' ∧ Inv (i + 1) s') :
    ∃ s', forUp n body s = .ok s' ∧ Inv n s' := by
  induction n with
  | zero => exact ⟨s, rfl, hstart⟩
  | succ n ih =>
    obtain ⟨s1, hs1, hinv1⟩ := ih fun i hi => hstep i (by omega)
    obtain ⟨s2, hs2, hinv2⟩ := hstep n (by omega) s1 hinv1
    refine ⟨s2, ?_, hinv2⟩
    rw [forUp, hs1, ok_bind, hs2]

/-- An invariant that every iteration carries one step down holds after the loop. -/
lemma forDown_spec {s : σ} (hstart : Inv n s)
    (hstep : ∀ i < n, ∀ s, Inv (i + 1) s → ∃ s', body i s = .ok s' ∧ Inv i s') :
    ∃ s', forDown n body s = .ok s' ∧ Inv 0 s' := by
  induction n generalizing s with
  | zero => exact ⟨s, rfl, hstart⟩
  | succ n ih =>
    obtain ⟨s1, hs1, hinv1⟩ := hstep n (by omega) s hstart
    obtain ⟨s2, hs2, hinv2⟩ := ih hinv1 fun i hi => hstep i (by omega)
    refine ⟨s2, ?_, hinv2⟩
    rw [forDown, hs1, ok_bind, hs2]

end

/-- A loop that runs `body` until it leaves with a result, within so many rounds. -/
def loop {β : Type} (body : σ → Result (σ ⊕ β)) : ℕ → σ → Result β
  | 0, _ => .error .diverges
  | fuel + 1, s => do
      match ← body s with
      | .inl s => loop body fuel s
      | .inr b => .ok b

/-- A loop whose invariant holds with fewer and fewer rounds to go leaves with what its exits
say. -/
lemma loop_spec {β : Type} (body : σ → Result (σ ⊕ β)) (Inv : ℕ → σ → Prop) (Post : β → Prop)
    (hbody : ∀ n s, Inv n s → (∃ b, body s = .ok (.inr b) ∧ Post b) ∨
      ∃ m < n, ∃ s', body s = .ok (.inl s') ∧ Inv m s')
    (fuel : ℕ) {n : ℕ} {s : σ} (hs : Inv n s) (hfuel : n < fuel) :
    ∃ b, loop body fuel s = .ok b ∧ Post b := by
  induction fuel generalizing n s with
  | zero => omega
  | succ fuel ih =>
    rcases hbody n s hs with ⟨b, hexit, hpost⟩ | ⟨m, hless, s', hnext, hs'⟩
    · exact ⟨b, by rw [loop, hexit, ok_bind], hpost⟩
    · obtain ⟨b, hb, hpost⟩ := ih hs' (by omega)
      refine ⟨b, ?_, hpost⟩
      rw [loop, hnext, ok_bind]
      exact hb

/-- A loop whose states are known in advance. -/
lemma loop_along {β : Type} (body : σ → Result (σ ⊕ β)) (x : ℕ → σ) {u : ℕ} {r : β}
    (hnext : ∀ j < u, body (x j) = .ok (.inl (x (j + 1)))) (hexit : body (x u) = .ok (.inr r))
    (fuel : ℕ) (hfuel : u < fuel) : loop body fuel (x 0) = .ok r := by
  have hspec := loop_spec body (fun n s => n ≤ u ∧ s = x (u - n)) (fun b => b = r) ?_ fuel
    (n := u) (s := x 0) ⟨Nat.le_refl u, by rw [Nat.sub_self]⟩ hfuel
  · obtain ⟨b, hb, rfl⟩ := hspec
    exact hb
  · rintro n s ⟨hn, rfl⟩
    rcases Nat.eq_zero_or_pos n with rfl | hpos
    · exact Or.inl ⟨r, hexit, rfl⟩
    · refine Or.inr ⟨n - 1, by omega, x (u - n + 1), hnext _ (by omega), by omega, ?_⟩
      rw [show u - (n - 1) = u - n + 1 by omega]

end

end DartSdk.Checked

namespace DartSdk.Executions

variable {σ ε α β : Type}

/-- The program ends normally from `s`, with a result and a state that satisfy `P`. -/
def Returns (m : StateT σ (Except ε) α) (s : σ) (P : α → σ → Prop) : Prop :=
  ∃ a s', m s = .ok (a, s') ∧ P a s'

variable {m : StateT σ (Except ε) α} {f : α → StateT σ (Except ε) β} {s : σ} {P : α → σ → Prop}
  {Q : β → σ → Prop}

lemma Returns.pure {a : α}
    (h : P a s) : Returns (Pure.pure a : StateT σ (Except ε) α) s P := ⟨a, s, rfl, h⟩

lemma Returns.bind (h : Returns m s P) (hf : ∀ a s', P a s' → Returns (f a) s' Q) :
    Returns (m >>= f) s Q := by
  obtain ⟨a, s', hm, hP⟩ := h
  obtain ⟨b, s'', hb, hQ⟩ := hf a s' hP
  refine ⟨b, s'', ?_, hQ⟩
  change (m s >>= fun p => f p.1 p.2) = _
  rw [hm]
  exact hb

lemma run_bind {a : α} {s' : σ} (h : m s = .ok (a, s')) : (m >>= f) s = f a s' := by
  change (m s >>= fun p => f p.1 p.2) = _
  rw [h]
  rfl

lemma run_bind_error {e : ε} (h : m s = .error e) : (m >>= f) s = .error e := by
  change (m s >>= fun p => f p.1 p.2) = _
  rw [h]
  rfl

lemma Returns.mono {P' : α → σ → Prop} (h : Returns m s P) (hP : ∀ a s', P a s' → P' a s') :
    Returns m s P' := by
  obtain ⟨a, s', hm, ha⟩ := h
  exact ⟨a, s', hm, hP a s' ha⟩

/-- A computation without a state. -/
def lift {ε' : Type} (g : ε' → ε) (r : Except ε' α) : StateT σ (Except ε) α := fun s =>
  match r with
  | .ok a => .ok (a, s)
  | .error e => .error (g e)

lemma Returns.lift {ε' : Type} {g : ε' → ε} {r : Except ε' α} {a : α} (hr : r = .ok a)
    (h : P a s) : Returns (lift g r) s P := by
  subst hr
  exact ⟨a, s, rfl, h⟩

lemma Returns.get {P : σ → σ → Prop} (h : P s s) :
    Returns (MonadState.get : StateT σ (Except ε) σ) s P := ⟨s, s, rfl, h⟩

end DartSdk.Executions

namespace DartSdk.Buffers

open List

variable {α : Type*}

/-- The cells from `j` on replaced by `xs`. -/
def overwrite (dst : List α) (j : ℕ) (xs : List α) : List α :=
  dst.take j ++ xs ++ dst.drop (j + xs.length)

/-- A store of consecutive cells at offset `j`; `none` when it leaves the buffer. -/
def store (dst : List α) (j : ℕ) (xs : List α) : Option (List α) :=
  if j + xs.length ≤ dst.length then some (overwrite dst j xs) else none

section

variable (dst : List α) (j : ℕ)

lemma length_overwrite (xs : List α) (h : j + xs.length ≤ dst.length) :
    (overwrite dst j xs).length = dst.length := by
  simp only [overwrite, length_append, length_take, length_drop]
  omega

lemma take_overwrite (xs : List α) (h : j + xs.length ≤ dst.length) :
    (overwrite dst j xs).take (j + xs.length) = dst.take j ++ xs := by
  have hpre : (dst.take j ++ xs).length = j + xs.length := by
    simp only [length_append, length_take]
    omega
  rw [overwrite, ← hpre, take_left]

lemma overwrite_nil : overwrite dst j [] = dst := by
  simp [overwrite]

/-- Two adjacent stores are one. -/
lemma overwrite_overwrite (xs ys : List α) (h : j + xs.length ≤ dst.length) :
    overwrite (overwrite dst j xs) (j + xs.length) ys = overwrite dst j (xs ++ ys) := by
  have hpre : (dst.take j ++ xs).length = j + xs.length := by
    simp only [length_append, length_take]
    omega
  have hdrop : (overwrite dst j xs).drop (j + xs.length + ys.length) =
      dst.drop (j + (xs ++ ys).length) := by
    rw [overwrite, ← drop_drop, drop_left' hpre, drop_drop, length_append, Nat.add_assoc]
  rw [overwrite, take_overwrite dst j xs h, hdrop, overwrite, append_assoc (dst.take j)]

end

lemma store_inside (dst xs : List α) (j : ℕ) (h : j + xs.length ≤ dst.length) :
    ∃ dst', store dst j xs = some dst' ∧ dst'.length = dst.length :=
  ⟨overwrite dst j xs, if_pos h, length_overwrite dst j xs h⟩

lemma store_prefix (dst written xs : List α) (h : written <+: dst)
    (hroom : written.length + xs.length ≤ dst.length) :
    ∃ dst', store dst written.length xs = some dst' ∧ written ++ xs <+: dst' ∧
      dst'.length = dst.length := by
  refine ⟨overwrite dst written.length xs, if_pos hroom, ?_, length_overwrite _ _ _ hroom⟩
  have htake := take_overwrite dst written.length xs hroom
  rw [← prefix_iff_eq_take.mp h] at htake
  exact htake ▸ take_prefix _ _

lemma eq_of_prefix_full (dst written : List α) (h : written <+: dst)
    (hfull : dst.length = written.length) : dst = written :=
  (h.eq_of_length hfull.symm).symm

end DartSdk.Buffers
