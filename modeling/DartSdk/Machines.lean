import Mathlib

/-!
Machines that read their input one item at a time, write output and may stop with an error, and
regular expressions with groups, matched by backtracking as in ECMAScript.
-/

namespace DartSdk.Transducers

open List

variable {σ ι ο ε : Type}

/-- A result after some output that was written before it. -/
def after (written : List ο) : Except ε (List ο × σ) → Except ε (List ο × σ)
  | .ok (output, s) => .ok (written ++ output, s)
  | .error e => .error e

@[simp] lemma after_ok (written output : List ο) (s : σ) :
    after written (.ok (output, s) : Except ε (List ο × σ)) = .ok (written ++ output, s) := rfl

@[simp] lemma after_error (written : List ο) (e : ε) :
    after written (.error e : Except ε (List ο × σ)) = .error e := rfl

@[simp] lemma after_nil (r : Except ε (List ο × σ)) : after [] r = r := by
  cases r <;> rfl

lemma after_after (w w' : List ο) (r : Except ε (List ο × σ)) :
    after w (after w' r) = after (w ++ w') r := by
  cases r with
  | ok p => rw [after, after, after, append_assoc]
  | error e => rfl

/-- The machine with this step on a list of input. -/
def feed (step : σ → ι → Except ε (List ο × σ)) : List ι → σ → Except ε (List ο × σ)
  | [], s => .ok ([], s)
  | x :: input, s =>
    match step s x with
    | .ok (output, s') => after output (feed step input s')
    | .error e => .error e

variable {step : σ → ι → Except ε (List ο × σ)}

@[simp] lemma feed_nil (s : σ) : feed step [] s = .ok ([], s) := rfl

lemma feed_cons_ok {s s' : σ} {x : ι} {output : List ο} (h : step s x = .ok (output, s'))
    (input : List ι) : feed step (x :: input) s = after output (feed step input s') := by
  rw [feed, h]

lemma feed_cons_error {s : σ} {x : ι} {e : ε} (h : step s x = .error e) (input : List ι) :
    feed step (x :: input) s = .error e := by
  rw [feed, h]

lemma feed_append_ok {s s' : σ} {first : List ι} {output : List ο}
    (h : feed step first s = .ok (output, s')) (second : List ι) :
    feed step (first ++ second) s = after output (feed step second s') := by
  induction first generalizing s output with
  | nil =>
    cases h
    rw [nil_append, after_nil]
  | cons x first ih =>
    rw [feed] at h
    cases hstep : step s x with
    | error e =>
      rw [hstep] at h
      cases h
    | ok p =>
      obtain ⟨o, s1⟩ := p
      rw [hstep] at h
      cases hrest : feed step first s1 with
      | error e =>
        simp only [hrest, after_error] at h
        cases h
      | ok p =>
        simp only [hrest] at h
        obtain ⟨rfl, rfl⟩ := h
        rw [cons_append, feed_cons_ok hstep, ih hrest, after_after]

lemma feed_append_error {s : σ} {first : List ι} {e : ε} (h : feed step first s = .error e)
    (second : List ι) : feed step (first ++ second) s = .error e := by
  induction first generalizing s with
  | nil => cases h
  | cons x first ih =>
    rw [feed] at h
    rw [cons_append, feed]
    cases hstep : step s x with
    | error e' =>
      rw [hstep] at h
      exact h
    | ok p =>
      obtain ⟨o, s1⟩ := p
      rw [hstep] at h
      cases hrest : feed step first s1 with
      | error e' =>
        simp only [hrest, after_error] at h
        cases h
        simp only [ih hrest, after_error]
      | ok p =>
        simp only [hrest, after] at h
        cases h

end DartSdk.Transducers

namespace DartSdk.Patterns

open List

variable {α β : Type}

inductive Pattern (α : Type)
  | empty
  | symbol (p : α → Bool)
  /-- Any number of symbols of a class. -/
  | many (p : α → Bool)
  | seq (first second : Pattern α)
  | alt (first second : Pattern α)
  | group (i : ℕ) (body : Pattern α)

/-- `p+`. -/
def Pattern.plus (p : α → Bool) : Pattern α := .seq (.symbol p) (.many p)

/-- `p?`. -/
def Pattern.optional (p : Pattern α) : Pattern α := .alt p .empty

abbrev Groups (α : Type) := ℕ → Option (List α)

def runMany (p : α → Bool) (rest : List α → Option β) : List α → Option β
  | [] => rest []
  | x :: s => if p x then (runMany p rest s).or (rest (x :: s)) else rest (x :: s)

/-- A match of the pattern at the beginning, continued by the rest of the pattern. -/
def Pattern.run : Pattern α → List α → Groups α → (List α → Groups α → Option β) → Option β
  | .empty, s, g, rest => rest s g
  | .symbol _, [], _, _ => none
  | .symbol p, x :: s, g, rest => if p x then rest s g else none
  | .many p, s, g, rest => runMany p (fun s => rest s g) s
  | .seq first second, s, g, rest => first.run s g fun s g => second.run s g rest
  | .alt first second, s, g, rest => (first.run s g rest).or (second.run s g rest)
  | .group i body, s, g, rest => body.run s g fun s' g =>
    rest s' (Function.update g i (some (s.take (s.length - s'.length))))

/-- `^p$`. -/
def Pattern.firstMatch (p : Pattern α) (s : List α) : Option (Groups α) :=
  p.run s (fun _ => none) fun rest g => if rest.isEmpty then some g else none

variable {p : α → Bool} {rest : List α → Groups α → Option β}

/-- When the rest of the pattern does not begin with a symbol of the class, a repetition takes
all of them. -/
lemma runMany_eq {rest : List α → Option β}
    (h : ∀ x s, p x = true → rest (x :: s) = none) (s : List α) :
    runMany p rest s = rest (s.dropWhile p) := by
  induction s with
  | nil => rfl
  | cons x s ih =>
    rw [runMany, dropWhile_cons]
    split_ifs with hx
    · rw [h x s hx, Option.or_none, ih]
    · rfl

lemma run_many {g : Groups α} (h : ∀ x s, p x = true → rest (x :: s) g = none) (s : List α) :
    (Pattern.many p).run s g rest = rest (s.dropWhile p) g := runMany_eq h s

lemma run_plus {g : Groups α} (h : ∀ x s, p x = true → rest (x :: s) g = none) (s : List α) :
    (Pattern.plus p).run s g rest =
      if (s.takeWhile p).isEmpty then none else rest (s.dropWhile p) g := by
  cases s with
  | nil => rfl
  | cons x t =>
    rw [Pattern.plus, Pattern.run, Pattern.run, takeWhile_cons, dropWhile_cons]
    by_cases hx : p x = true
    · rw [if_pos hx, if_pos hx, if_pos hx, run_many h]
      rfl
    · rw [if_neg hx, if_neg hx]
      rfl

/-- What a group has taken when a part of the input is left. -/
lemma take_of_append (l m : List α) : (l ++ m).take ((l ++ m).length - m.length) = l := by
  rw [length_append, Nat.add_sub_cancel, take_left]

end DartSdk.Patterns
