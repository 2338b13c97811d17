import DartSdk.Base64
import DartSdk.Machines

/-!
A machine that decodes one character at a time accepts exactly the padded encodings with
characters of either alphabet, also a mix of both. The loops of the decoder over one chunk do
what it does, when the buffer has room for what is written until an error.
-/

namespace DartSdk.Base64

open Checked Buffers Base64Format Transducers List

section

/-- The value of a character of either alphabet. -/
def value (char : ℕ) : Option ℕ := base64Alphabet.idxOf? char <|> base64UrlAlphabet.idxOf? char

/-- The ways to write a padding character. -/
def Pad (chars : List ℕ) : Prop :=
  chars ∈ [[0x3D], [0x25, 0x33, 0x44], [0x25, 0x33, 0x64]]

/-- What was read: some characters of a group, or padding with so many characters to come. -/
inductive Mode
  | sextets (pending : List ℕ)
  | padding (expected : ℕ)

/-- The bytes of a last group with two or three characters. -/
def finish : List ℕ → Option (List ℕ)
  | [p, q] => if q % 16 = 0 then some [p * 4 + q / 16] else none
  | [p, q, r] => if r % 4 = 0 then some [p * 4 + q / 16, q % 16 * 16 + r / 4] else none
  | _ => none

/-- The padding that is expected after one more character of it. -/
def padStep (expected char : ℕ) : Option ℕ :=
  if expected = 3 ∧ char = paddingChar then some 0
  else if expected = 3 ∧ char = charPercent then some 2
  else if (expected = 5 ∨ expected = 2) ∧ char = char3 then some (expected - 1)
  else if (expected = 4 ∨ expected = 1) ∧ (char = 0x44 ∨ char = 0x64) then some (expected - 1)
  else none

def isPadding (char : ℕ) : Bool := char = paddingChar ∨ char = charPercent

def step : Mode → ℕ → Except Unit (List ℕ × Mode)
  | .sextets pending, char =>
    match value char with
    | some v =>
      match pending with
      | [p, q, r] => .ok (octets p q r v, .sextets [])
      | _ => .ok ([], .sextets (pending ++ [v]))
    | none =>
      match isPadding char, finish pending with
      | true, some bytes => .ok (bytes, .padding ((3 - pending.length) * 3 +
          if char = charPercent then 2 else 0))
      | _, _ => .error ()
  | .padding expected, char =>
    match padStep expected char with
    | some expected => .ok ([], .padding expected)
    | none => .error ()

/-- The places where the input may end. -/
def Mode.IsFinal : Mode → Prop
  | .sextets pending => pending = []
  | .padding expected => expected = 0

variable {pending : List ℕ} {char : ℕ}

variable {v expected' others : ℕ} {first before : List ℕ}

lemma step_sextet (hval : value char = some v) (hpend : pending.length < 3) :
    step (.sextets pending) char = .ok ([], .sextets (pending ++ [v])) := by
  rw [step, hval]
  match pending, hpend with
  | [], _ => rfl
  | [p], _ => rfl
  | [p, q], _ => rfl

lemma step_group {p q r : ℕ} (hval : value char = some v) :
    step (.sextets [p, q, r]) char = .ok (octets p q r v, .sextets []) := by
  rw [step, hval]

variable {bytes : List ℕ}

lemma step_finish (hval : value char = none)
    (hpad : isPadding char = true) (hfin : finish pending = some bytes) :
    step (.sextets pending) char = .ok (bytes, .padding ((3 - pending.length) * 3 +
      if char = charPercent then 2 else 0)) := by
  rw [step, hval, hpad, hfin]

variable {expected : ℕ}

lemma step_padding (h : padStep expected char = some expected') :
    step (.padding expected) char = .ok ([], .padding expected') := by
  rw [step, h]

variable {pad : List ℕ}

lemma pad_cases (h : Pad pad) :
    pad = [0x3D] ∨ ∃ d, (d = 0x44 ∨ d = 0x64) ∧ pad = [0x25, 0x33, d] := by
  simp only [Pad, mem_cons, not_mem_nil, or_false] at h
  rcases h with rfl | rfl | rfl
  · exact .inl rfl
  · exact .inr ⟨_, .inl rfl, rfl⟩
  · exact .inr ⟨_, .inr rfl, rfl⟩

lemma feed_pad (hpad : Pad pad) : feed step pad (.padding 3) = .ok ([], .padding 0) := by
  rcases pad_cases hpad with rfl | ⟨d, rfl | rfl, rfl⟩
  · rfl
  · rfl
  · rfl

lemma feed_escape {d : ℕ} (hothers : others = 0 ∨ others = 3) (hd : d = 0x44 ∨ d = 0x64) :
    feed step [0x33, d] (.padding (others + 2)) = .ok ([], .padding others) := by
  rcases hothers with rfl | rfl
  · rcases hd with rfl | rfl
    · rfl
    · rfl
  · rcases hd with rfl | rfl
    · rfl
    · rfl

/-- The first padding, after two characters of a group or after three. -/
lemma feed_pad_finish (hpad : Pad pad) (hfin : finish pending = some bytes) :
    feed step pad (.sextets pending) = .ok (bytes, .padding ((3 - pending.length) * 3)) := by
  have hothers : (3 - pending.length) * 3 = 0 ∨ (3 - pending.length) * 3 = 3 := by
    match pending, hfin with
    | [p, q], _ => exact .inr rfl
    | [p, q, r], _ => exact .inl rfl
  rcases pad_cases hpad with rfl | ⟨d, hd, rfl⟩
  · rw [feed_cons_ok (step_finish (by decide) rfl hfin), if_neg (by decide), feed_nil, after_ok,
      append_nil, add_zero]
  · rw [feed_cons_ok (step_finish (by decide) rfl hfin), if_pos (by decide),
      feed_escape hothers hd, after_ok, append_nil]

variable {chars : List ℕ}

lemma feed_of_encodes (h : Encodes value Pad chars bytes) :
    ∃ m, feed step chars (.sextets []) = .ok (bytes, m) ∧ m.IsFinal := by
  induction h with
  | nil => exact ⟨_, rfl, rfl⟩
  | @one c d p q pad1 pad2 hc hd h1 h2 hzero =>
    have hfin : finish [p, q] = some [p * 4 + q / 16] := if_pos hzero
    refine ⟨.padding 0, ?_, rfl⟩
    rw [feed_cons_ok (step_sextet hc (by decide)), nil_append,
      feed_cons_ok (step_sextet hd (by simp)), after_nil, after_nil, singleton_append,
      feed_append_ok (feed_pad_finish h1 hfin)]
    simp only [length_cons, length_nil, Nat.reduceAdd, Nat.reduceSub, Nat.reduceMul]
    rw [feed_pad h2, after_ok, append_nil]
  | @two c d e p q r pad hc hd he hpad hzero =>
    have hfin : finish [p, q, r] = some [p * 4 + q / 16, q % 16 * 16 + r / 4] := if_pos hzero
    refine ⟨.padding 0, ?_, rfl⟩
    rw [feed_cons_ok (step_sextet hc (by decide)), nil_append,
      feed_cons_ok (step_sextet hd (by simp)), singleton_append,
      feed_cons_ok (step_sextet he (by simp)), after_nil, after_nil, after_nil]
    exact feed_pad_finish hpad hfin
  | @cons c d e f p q r s chars bytes hc hd he hf h ih =>
    obtain ⟨m, hfeed, hfinal⟩ := ih
    refine ⟨m, ?_, hfinal⟩
    rw [feed_cons_ok (step_sextet hc (by decide)), nil_append,
      feed_cons_ok (step_sextet hd (by simp)), singleton_append,
      feed_cons_ok (step_sextet he (by simp)), cons_append, singleton_append,
      feed_cons_ok (step_group hf), hfeed, after_nil, after_nil, after_nil, after_ok]

variable {out rest : List ℕ} {m : Mode}

lemma feed_cons_inv {s : Mode} (h : feed step (char :: rest) s = .ok (out, m)) :
    ∃ first s' others, step s char = .ok (first, s') ∧ feed step rest s' = .ok (others, m) ∧
      out = first ++ others := by
  rw [feed] at h
  cases hstep : step s char with
  | error e =>
    rw [hstep] at h
    cases h
  | ok p =>
    obtain ⟨first, s'⟩ := p
    rw [hstep] at h
    cases hrest : feed step rest s' with
    | error e =>
      simp only [hrest, after_error] at h
      cases h
    | ok p =>
      obtain ⟨others, m'⟩ := p
      simp only [hrest, after_ok, Except.ok.injEq, Prod.mk.injEq] at h
      obtain ⟨rfl, rfl⟩ := h
      exact ⟨first, s', others, rfl, hrest, rfl⟩

lemma step_padding_inv {s' : Mode} (h : step (.padding expected) char = .ok (first, s')) :
    first = [] ∧ ∃ expected', s' = .padding expected' ∧ padStep expected char = some expected' := by
  rw [step] at h
  cases hpad : padStep expected char with
  | none =>
    rw [hpad] at h
    cases h
  | some expected' =>
    rw [hpad] at h
    cases h
    exact ⟨rfl, expected', rfl, rfl⟩

/-- The characters that complete the padding. -/
def Completes : ℕ → List ℕ → Prop
  | 0, chars => chars = []
  | 1, chars => chars = [0x44] ∨ chars = [0x64]
  | 2, chars => chars = [0x33, 0x44] ∨ chars = [0x33, 0x64]
  | 3, chars => Pad chars
  | 4, chars => ∃ pad, Pad pad ∧ (chars = 0x44 :: pad ∨ chars = 0x64 :: pad)
  | 5, chars => ∃ pad, Pad pad ∧ (chars = 0x33 :: 0x44 :: pad ∨ chars = 0x33 :: 0x64 :: pad)
  | _, _ => False

lemma completes_cons
    (hstep : padStep expected char = some expected') (h : Completes expected' rest) :
    Completes expected (char :: rest) := by
  rw [padStep] at hstep
  split_ifs at hstep with h1 h2 h3 h4
  · cases hstep
    obtain ⟨rfl, rfl⟩ := h1
    cases h
    exact mem_cons_self
  · cases hstep
    obtain ⟨rfl, rfl⟩ := h2
    rcases h with rfl | rfl
    · exact mem_cons_of_mem _ mem_cons_self
    · exact mem_cons_of_mem _ (mem_cons_of_mem _ mem_cons_self)
  · cases hstep
    obtain ⟨rfl | rfl, rfl⟩ := h3
    · obtain ⟨pad, hpad, rfl | rfl⟩ := h
      · exact ⟨pad, hpad, .inl rfl⟩
      · exact ⟨pad, hpad, .inr rfl⟩
    · rcases h with rfl | rfl
      · exact .inl rfl
      · exact .inr rfl
  · cases hstep
    obtain ⟨rfl | rfl, rfl | rfl⟩ := h4
    · exact ⟨rest, h, .inl rfl⟩
    · exact ⟨rest, h, .inr rfl⟩
    · cases h
      exact .inl rfl
    · cases h
      exact .inr rfl

section

variable (h : feed step chars (.padding expected) = .ok (out, m))

include h

lemma feed_padding_inv : out = [] ∧ ∃ expected', m = .padding expected' := by
  induction chars generalizing expected out with
  | nil =>
    cases h
    exact ⟨rfl, expected, rfl⟩
  | cons char rest ih =>
    obtain ⟨first, s', others, hstep, hrest, rfl⟩ := feed_cons_inv h
    obtain ⟨rfl, expected', rfl, _⟩ := step_padding_inv hstep
    exact ih hrest

lemma completes_of_feed (hm : m.IsFinal) : out = [] ∧ Completes expected chars := by
  induction chars generalizing expected out with
  | nil =>
    cases h
    cases hm
    exact ⟨rfl, rfl⟩
  | cons char rest ih =>
    obtain ⟨first, s', others, hstep, hrest, rfl⟩ := feed_cons_inv h
    obtain ⟨rfl, expected', rfl, hpad⟩ := step_padding_inv hstep
    obtain ⟨rfl, hcompletes⟩ := ih hrest
    exact ⟨rfl, completes_cons hpad hcompletes⟩

end

lemma step_sextets_inv {s' : Mode} (h : step (.sextets pending) char = .ok (first, s')) :
    (∃ v, value char = some v ∧
      ((∃ p q r, pending = [p, q, r] ∧ first = octets p q r v ∧ s' = .sextets []) ∨
        first = [] ∧ pending.length ≠ 3 ∧ s' = .sextets (pending ++ [v]))) ∨
    value char = none ∧ isPadding char = true ∧ finish pending = some first ∧
      s' = .padding ((3 - pending.length) * 3 + if char = charPercent then 2 else 0) := by
  cases hval : value char with
  | some v =>
    refine .inl ⟨v, rfl, ?_⟩
    simp only [step, hval] at h
    split at h
    · cases h
      exact .inl ⟨_, _, _, rfl, rfl, rfl⟩
    next hother =>
      cases h
      refine .inr ⟨rfl, ?_, rfl⟩
      intro hthree
      obtain ⟨p, q, r, rfl⟩ := length_eq_three.mp hthree
      exact hother p q r rfl
  | none =>
    refine .inr ⟨rfl, ?_⟩
    simp only [step, hval] at h
    split at h
    next hpad hfin =>
      cases h
      exact ⟨hpad, hfin, rfl⟩
    next => cases h

/-- The rest of the padding completes the first padding character and, after two characters, has the
second. -/
lemma pads_of_completes (hpadding : isPadding char = true) (hothers : others = 0 ∨ others = 3)
    (h : Completes (others + if char = charPercent then 2 else 0) rest) :
    ∃ pad pads, Pad pad ∧ Completes others pads ∧ char :: rest = pad ++ pads := by
  have hpadding' : char = paddingChar ∨ char = charPercent := by
    simpa [isPadding] using hpadding
  rcases hpadding' with rfl | rfl
  · rw [if_neg (by decide), add_zero] at h
    exact ⟨[0x3D], rest, mem_cons_self, h, rfl⟩
  · rw [if_pos rfl] at h
    have hescape (d : ℕ) (hd : d = 0x44 ∨ d = 0x64) : Pad [0x25, 0x33, d] := by
      rcases hd with rfl | rfl
      · exact mem_cons_of_mem _ mem_cons_self
      · exact mem_cons_of_mem _ (mem_cons_of_mem _ mem_cons_self)
    rcases hothers with rfl | rfl
    · rcases h with rfl | rfl
      · exact ⟨_, [], hescape _ (.inl rfl), rfl, rfl⟩
      · exact ⟨_, [], hescape _ (.inr rfl), rfl, rfl⟩
    · obtain ⟨pad, hpad, rfl | rfl⟩ := h
      · exact ⟨_, pad, hescape _ (.inl rfl), hpad, rfl⟩
      · exact ⟨_, pad, hescape _ (.inr rfl), hpad, rfl⟩

lemma encodes_of_finish (hpre : List.Forall₂ (fun c v => value c = some v) before pending)
    (hpadding : isPadding char = true) (hfin : finish pending = some bytes)
    (h : Completes ((3 - pending.length) * 3 + if char = charPercent then 2 else 0) rest) :
    Encodes value Pad (before ++ char :: rest) bytes := by
  match pending, hpre, hfin with
  | [p, q], .cons hc (.cons hd .nil), hfin =>
    obtain ⟨pad, pads, hpad, hpads, heq⟩ := pads_of_completes hpadding (.inr rfl) h
    rw [finish] at hfin
    split_ifs at hfin with hzero
    cases hfin
    rw [heq]
    exact @Encodes.one value Pad _ _ _ _ pad pads hc hd hpad hpads hzero
  | [p, q, r], .cons hc (.cons hd (.cons he .nil)), hfin =>
    obtain ⟨pad, pads, hpad, hpads, heq⟩ := pads_of_completes hpadding (.inl rfl) h
    cases hpads
    rw [finish] at hfin
    split_ifs at hfin with hzero
    cases hfin
    rw [heq, append_nil]
    exact .two hc hd he hpad hzero

lemma encodes_of_feed (h : feed step chars (.sextets pending) = .ok (bytes, m)) (hm : m.IsFinal)
    (hpre : List.Forall₂ (fun c v => value c = some v) before pending) :
    Encodes value Pad (before ++ chars) bytes := by
  induction chars generalizing pending before bytes with
  | nil =>
    cases h
    cases hm
    cases hpre
    exact .nil
  | cons char rest ih =>
    obtain ⟨first, s', others, hstep, hrest, rfl⟩ := feed_cons_inv h
    rcases step_sextets_inv hstep with
      ⟨v, hval, ⟨p, q, r, rfl, rfl, rfl⟩ | ⟨rfl, _, rfl⟩⟩ | ⟨_, hpad, hfin, rfl⟩
    · match before, hpre with
      | [c, d, e], .cons hc (.cons hd (.cons he .nil)) =>
        exact .cons hc hd he hval (ih hrest .nil)
    · rw [nil_append, append_cons]
      exact ih hrest (rel_append hpre (.cons hval .nil))
    · obtain ⟨rfl, hcompletes⟩ := completes_of_feed hrest hm
      rw [append_nil]
      exact encodes_of_finish hpre hpad hfin hcompletes

/-- The machine accepts exactly the encodings. -/
lemma feed_iff_encodes (chars bytes : List ℕ) :
    (∃ m, feed step chars (.sextets []) = .ok (bytes, m) ∧ m.IsFinal) ↔
      Encodes value Pad chars bytes := by
  constructor
  · rintro ⟨m, h, hm⟩
    exact encodes_of_feed h hm .nil
  · exact feed_of_encodes

end

lemma or_eq_charD (char : ℕ) : char ||| 0x20 = charD ↔ char = 0x44 ∨ char = 0x64 := by
  constructor
  · intro h
    have hle : char ≤ charD := h ▸ Nat.left_le_or
    have hall : ∀ c < 101, c ||| 0x20 = charD → c = 0x44 ∨ c = 0x64 := by decide
    exact hall char (Nat.lt_succ_of_le hle) h
  · rintro (rfl | rfl)
    · rfl
    · rfl

/-- A round of the loop keeps what the machine says, or leaves with it. -/
def Agrees (result : Except Unit (List ℕ × Mode)) (bound : ℕ) :
    (List ℕ × ℕ) ⊕ (List ℕ × ℕ) → Prop
  | .inl (rest, expected) => rest ≠ [] ∧ expected < bound ∧
      feed step rest (.padding expected) = result
  | .inr (rest, expected) => expected ≤ bound ∧
      if rest = [] then result = .ok ([], .padding expected) else result = .error ()

lemma Agrees.mono {result : Except Unit (List ℕ × Mode)} {bound bound' : ℕ}
    {round : (List ℕ × ℕ) ⊕ (List ℕ × ℕ)} (h : Agrees result bound round) (hle : bound ≤ bound') :
    Agrees result bound' round := by
  match round, h with
  | .inl _, h => exact ⟨h.1, lt_of_lt_of_le h.2.1 hle, h.2.2⟩
  | .inr _, h => exact ⟨h.1.trans hle, h.2⟩

variable {char expected : ℕ} {rest : List ℕ}

lemma feed_padding_cons {expected' : ℕ} (h : padStep expected char = some expected') :
    feed step (char :: rest) (.padding expected) = feed step rest (.padding expected') := by
  rw [feed_cons_ok (step_padding h), after_nil]

lemma feed_padding_error (h : padStep expected char = none) :
    feed step (char :: rest) (.padding expected) = .error () := by
  apply feed_cons_error
  rw [step, h]

lemma expectD_agrees (rest : List ℕ) (h : expected = 4 ∨ expected = 1) :
    Agrees (feed step rest (.padding expected)) expected (expectD rest expected) := by
  cases rest with
  | nil => exact ⟨le_refl _, rfl⟩
  | cons char rest =>
    rw [expectD]
    by_cases hchar : char ||| 0x20 = charD
    · have hpad : padStep expected char = some (expected - 1) := by
        rcases h with rfl | rfl <;> rcases (or_eq_charD char).mp hchar with rfl | rfl <;> rfl
      rw [feed_padding_cons hpad, if_neg (not_not_intro hchar)]
      split_ifs with hrest
      · subst hrest
        exact ⟨Nat.sub_le _ _, rfl⟩
      · exact ⟨hrest, by omega, rfl⟩
    · have hpad : padStep expected char = none := by
        rw [or_eq_charD] at hchar
        rw [padStep, if_neg (by omega), if_neg (by omega), if_neg (by omega),
          if_neg (fun h => hchar h.2)]
      rw [feed_padding_error hpad, if_pos hchar]
      exact ⟨le_refl _, rfl⟩

lemma expectEscape_agrees (rest : List ℕ) (hpos : 0 < expected)
    (hle : expected ≤ 5) (hthree : expected ≠ 3) :
    Agrees (feed step rest (.padding expected)) expected (expectEscape rest expected) := by
  cases rest with
  | nil => exact ⟨le_refl _, rfl⟩
  | cons char rest =>
    simp only [expectEscape]
    by_cases htwo : expected = 5 ∨ expected = 2
    · rw [if_pos (by split_ifs <;> omega)]
      split_ifs with hchar
      · have hpad : padStep expected char = none := by
          rw [padStep, if_neg (by omega), if_neg (by omega), if_neg (fun h => hchar h.2),
            if_neg (by omega)]
        rw [feed_padding_error hpad]
        exact ⟨le_refl _, rfl⟩
      · have hpad : padStep expected char = some (expected - 1) := by
          rw [padStep, if_neg (by omega), if_neg (by omega), if_pos ⟨htwo, not_not.mp hchar⟩]
        rw [feed_padding_cons hpad]
        exact (expectD_agrees rest (by omega)).mono (Nat.sub_le _ _)
    · rw [if_neg (by split_ifs <;> omega)]
      exact expectD_agrees _ (by omega)

lemma checkPaddingRound_agrees (hrest : rest ≠ []) (hle : expected ≤ 5) :
    ∃ round, checkPaddingRound (rest, expected) = .ok round ∧
      Agrees (feed step rest (.padding expected)) expected round := by
  obtain ⟨char, rest, rfl⟩ := exists_cons_of_ne_nil hrest
  rw [checkPaddingRound]
  by_cases hzero : expected = 0
  · subst hzero
    refine ⟨_, if_pos rfl, le_refl _, ?_⟩
    exact feed_padding_error (by simp [padStep])
  rw [if_neg hzero]
  by_cases hthree : expected = 3
  · subst hthree
    simp only [if_true]
    split_ifs with hequals hpercent
    · have hpad : padStep 3 char = some 0 := if_pos ⟨rfl, hequals⟩
      rw [feed_padding_cons hpad]
      refine ⟨_, rfl, by decide, ?_⟩
      split_ifs with hnil
      · rw [hnil, feed_nil]
      · obtain ⟨c, rest, rfl⟩ := exists_cons_of_ne_nil hnil
        exact feed_padding_error (by simp [padStep])
    · have hpad : padStep 3 char = some 2 := by
        rw [padStep, if_neg (fun h => hequals h.2), if_pos ⟨rfl, hpercent⟩]
      rw [feed_padding_cons hpad]
      exact ⟨_, rfl, (expectEscape_agrees rest (by decide) (by decide) (by decide)).mono
        (by decide)⟩
    · have hpad : padStep 3 char = none := by
        rw [padStep, if_neg (fun h => hequals h.2), if_neg (fun h => hpercent h.2),
          if_neg (by omega), if_neg (by omega)]
      rw [feed_padding_error hpad]
      exact ⟨_, rfl, le_refl _, by rw [if_neg hrest]⟩
  · rw [if_neg hthree]
    exact ⟨_, rfl, expectEscape_agrees _ (Nat.pos_of_ne_zero hzero) hle hthree⟩

lemma checkPadding_spec (input rest : List ℕ) (last : ℕ) (hle : expected ≤ 5) :
    (∃ expected' ≤ 5, feed step rest (.padding expected) = .ok ([], .padding expected') ∧
      checkPadding input rest last (-expected - 1) = .ok (.ok (-expected' - 1))) ∨
    feed step rest (.padding expected) = .error () ∧
      ∃ e, checkPadding input rest last (-expected - 1) = .ok (.error e) := by
  have hseen : hasSeenPadding (-(expected : ℤ) - 1) = true := decide_eq_true (by omega)
  rw [checkPadding, hseen, check_true, ok_bind]
  by_cases hrest : rest = []
  · subst hrest
    exact .inl ⟨expected, hle, rfl, if_pos rfl⟩
  have hexp : (-(-(expected : ℤ) - 1) - 1).toNat = expected := by omega
  simp only [if_neg hrest, hexp]
  rw [check_of (decide_eq_true (by omega)), ok_bind]
  obtain ⟨⟨rest', expected'⟩, hloop, hle', hres⟩ := loop_spec checkPaddingRound
    (fun n s => s.2 = n ∧ s.1 ≠ [] ∧ s.2 ≤ 5 ∧
      feed step s.1 (.padding s.2) = feed step rest (.padding expected))
    (fun b => b.2 ≤ 5 ∧ if b.1 = [] then feed step rest (.padding expected) =
      .ok ([], .padding b.2) else feed step rest (.padding expected) = .error ())
    (by
      rintro n ⟨rest1, expected1⟩ ⟨rfl, hne, hle1, hsame⟩
      obtain ⟨round, hround, hagrees⟩ := checkPaddingRound_agrees hne hle1
      rw [hsame] at hagrees
      match round, hagrees with
      | .inl s, hagrees =>
        exact .inr ⟨s.2, hagrees.2.1, s, hround, rfl, hagrees.1, by have := hagrees.2.1; omega,
          hagrees.2.2⟩
      | .inr b, hagrees => exact .inl ⟨b, hround, hagrees.1.trans hle1, hagrees.2⟩)
    6 (n := expected) (s := (rest, expected)) ⟨rfl, hrest, hle, rfl⟩ (by omega)
  rw [hloop, ok_bind]
  by_cases hnil : rest' = []
  · simp only [hnil, if_true] at hres
    refine .inl ⟨expected', hle', hres, ?_⟩
    simp only [hnil, ne_eq, not_true_eq_false, if_false]
    rw [encodePaddingState, check_of (decide_eq_true hle'), ok_bind, ok_bind]
  · simp only [hnil, if_false] at hres
    refine .inr ⟨hres, ?_⟩
    simp only [ne_eq, hnil, not_false_eq_true, if_true]
    exact ⟨_, rfl⟩

/-- The entry of the table for a character. -/
def codeOf (char : ℕ) : ℤ :=
  match value char with
  | some v => v
  | none => if isPadding char then -1 else -2

lemma read_inverseAlphabet (char : ℕ) :
    read inverseAlphabet (char &&& 127) = .ok (codeOf (char % 128)) := by
  have htable : ∀ c < 128, read inverseAlphabet c = .ok (codeOf c) := by
    decide +kernel
  rw [show (127 : ℕ) = 2 ^ 7 - 1 from rfl, Nat.and_two_pow_sub_one_eq_mod]
  exact htable _ (Nat.mod_lt _ (by decide))

lemma value_not_ascii (h : 127 < char) : value char = none := by
  have hmem (urlSafe : Bool) : ∀ c ∈ alphabetOf urlSafe, c ≤ 127 := by
    cases urlSafe with
    | false => decide
    | true => decide
  have hnone (urlSafe : Bool) : (alphabetOf urlSafe).idxOf? char = none := by
    rw [List.idxOf?_eq_none_iff]
    intro hchar
    have := hmem urlSafe char hchar
    omega
  exact (congrArg₂ (· <|> ·) (hnone false) (hnone true) :)

lemma value_lt {v : ℕ} (h : value char = some v) : v < 64 := by
  have htable : ∀ c < 128, ∀ v ∈ value c, v < 64 := by decide +kernel
  by_cases hascii : char < 128
  · exact htable char hascii v h
  · rw [value_not_ascii (by omega)] at h
    cases h

lemma isPadding_not_ascii (h : 127 < char) : isPadding char = false := by
  apply decide_eq_false
  rw [paddingChar, charPercent]
  omega

lemma step_not_ascii (pending : List ℕ) (h : 127 < char) :
    step (.sextets pending) char = .error () := by
  simp only [step, value_not_ascii h, isPadding_not_ascii h]

lemma or_le_ascii {a b : ℕ} : a ||| b ≤ 127 ↔ a ≤ 127 ∧ b ≤ 127 := by
  constructor
  · intro h
    exact ⟨Nat.left_le_or.trans h, Nat.right_le_or.trans h⟩
  · rintro ⟨ha, hb⟩
    exact Nat.le_of_lt_succ
      (Nat.or_lt_two_pow (show a < 2 ^ 7 by omega) (show b < 2 ^ 7 by omega))

/-- The number that the values of the characters make. -/
def sextetBits (pending : List ℕ) : ℕ := pending.foldl (fun bits v => bits * 64 + v) 0

/-- The locals hold the characters of a group, and the buffer what was written. -/
structure DecodeLocals.Holds (l : DecodeLocals) (pending written : List ℕ) : Prop where
  pending_length : pending.length < 4
  values : ∀ v ∈ pending, v < 64
  bits_eq : l.bits = sextetBits pending
  count_eq : l.count = pending.length
  written_prefix : written <+: l.output
  index_eq : l.outIndex = written.length

/-- What the machine makes of the rest of the chunk; a character that is not ASCII is an error. -/
def remains (charOr : ℕ) (written chars pending : List ℕ) : Except Unit (List ℕ × Mode) :=
  if charOr ≤ 127 then after written (feed step chars (.sextets pending)) else .error ()

variable {charOr : ℕ}

lemma remains_cons_not_ascii (h : 127 < charOr ||| char) (written rest pending : List ℕ) :
    remains charOr written (char :: rest) pending = .error () := by
  rw [remains]
  split_ifs with hor
  · have hchar : 127 < char := by
      by_contra hle
      have := or_le_ascii.mpr ⟨hor, not_lt.mp hle⟩
      omega
    rw [feed_cons_error (step_not_ascii pending hchar), after_error]
  · rfl

variable {pending : List ℕ}

lemma remains_cons_ok (h : charOr ||| char ≤ 127) (written rest : List ℕ) {pending' out : List ℕ}
    (hstep : step (.sextets pending) char = .ok (out, .sextets pending')) :
    remains charOr written (char :: rest) pending =
      remains (charOr ||| char) (written ++ out) rest pending' := by
  rw [remains, remains, if_pos (or_le_ascii.mp h).1, if_pos h, feed_cons_ok hstep, after_after]

lemma remains_cons_error (written rest : List ℕ)
    (hstep : step (.sextets pending) char = .error ()) :
    remains charOr written (char :: rest) pending = .error () := by
  rw [remains]
  split_ifs
  · rw [feed_cons_error hstep, after_error]
  · rfl

/-- The bytes that the loop may write from here on. -/
def needed : ℕ → List ℕ → ℕ
  | _, [] => 0
  | count, char :: rest =>
    match value (char % 128) with
    | some _ => if count = 3 then 3 + needed 0 rest else needed (count + 1) rest
    | none => if isPadding char ∧ 1 < count then count - 1 else 0

/-- The loop ends with what the machine says. -/
def LoopAgrees (result : Except Unit (List ℕ × Mode)) (size : ℕ) :
    DecodeLocals ⊕ DecodeExit → Prop
  | .inl l => if l.charOr ≤ 127 then ∃ pending written, result = .ok (written, .sextets pending) ∧
        l.Holds pending written ∧ l.output.length = size
      else result = .error ()
  | .inr (.returned output state) => ∃ written expected, result = .ok (written, .padding expected) ∧
      expected ≤ 5 ∧ state = -expected - 1 ∧ written <+: output ∧ output.length = size
  | .inr (.thrown _) => result = .error ()
  | .inr .broken => result = .error ()

lemma sextetBits_snoc (h : pending.length < 4)
    (hvalues : ∀ v ∈ pending, v < 64) {v : ℕ} (hv : v < 64) :
    (sextetBits pending <<< 6 ||| v) &&& 0xFFFFFF = sextetBits (pending ++ [v]) := by
  have hlt : sextetBits pending < 262144 := by
    match pending, h with
    | [], _ => decide
    | [p], _ =>
      have hp := hvalues p (by simp)
      simp only [sextetBits, foldl_cons, foldl_nil]
      omega
    | [p, q], _ =>
      have hp := hvalues p (by simp)
      have hq := hvalues q (by simp)
      simp only [sextetBits, foldl_cons, foldl_nil]
      omega
    | [p, q, r], _ =>
      have hp := hvalues p (by simp)
      have hq := hvalues q (by simp)
      have hr := hvalues r (by simp)
      simp only [sextetBits, foldl_cons, foldl_nil]
      omega
  rw [← Nat.shiftLeft_add_eq_or_of_lt (by omega : v < 2 ^ 6), Nat.shiftLeft_eq,
    show (0xFFFFFF : ℕ) = 2 ^ 24 - 1 from rfl, Nat.and_two_pow_sub_one_eq_mod, sextetBits,
    sextetBits, foldl_append, foldl_cons, foldl_nil]
  rw [sextetBits] at hlt
  omega

/-- The bytes of four characters. -/
lemma octets_of_bits {p q r s : ℕ} (hp : p < 64) (hq : q < 64) (hr : r < 64) (hs : s < 64) :
    [sextetBits [p, q, r, s] >>> 16, sextetBits [p, q, r, s] >>> 8, sextetBits [p, q, r, s]].map
      (· % 256) = octets p q r s := by
  have hbits : sextetBits [p, q, r, s] = ((p * 64 + q) * 64 + r) * 64 + s := by
    simp [sextetBits]
  simp only [hbits, Nat.shiftRight_eq_div_pow, octets, map_cons, map_nil, List.cons.injEq, and_true]
  omega

/-- The test before padding, and the bytes that are written there. -/
lemma finish_of_bits (hvalues : ∀ v ∈ pending, v < 64)
    (hlen : pending.length = 2 ∨ pending.length = 3) :
    if pending.length = 3 ∧ sextetBits pending &&& 0x03 ≠ 0 ∨
        pending.length ≠ 3 ∧ sextetBits pending &&& 0x0F ≠ 0 then finish pending = none
    else finish pending = some ((if pending.length = 3 then
      [sextetBits pending >>> 10, sextetBits pending >>> 2] else
      [sextetBits pending >>> 4]).map (· % 256)) := by
  rw [show (0x03 : ℕ) = 2 ^ 2 - 1 from rfl, show (0x0F : ℕ) = 2 ^ 4 - 1 from rfl,
    Nat.and_two_pow_sub_one_eq_mod, Nat.and_two_pow_sub_one_eq_mod]
  rcases hlen with hlen | hlen
  · obtain ⟨p, q, rfl⟩ := length_eq_two.mp hlen
    have hp := hvalues p (by simp)
    have hq := hvalues q (by simp)
    have hbits : sextetBits [p, q] = p * 64 + q := by simp [sextetBits]
    rw [hbits, finish]
    by_cases hzero : q % 16 = 0
    · rw [if_neg (by simp; omega), if_pos hzero, if_neg (by simp)]
      simp only [Nat.shiftRight_eq_div_pow, map_cons, map_nil, Option.some.injEq,
        List.cons.injEq, and_true]
      omega
    · rw [if_pos (by simp; omega), if_neg hzero]
  · obtain ⟨p, q, r, rfl⟩ := length_eq_three.mp hlen
    have hp := hvalues p (by simp)
    have hq := hvalues q (by simp)
    have hr := hvalues r (by simp)
    have hbits : sextetBits [p, q, r] = (p * 64 + q) * 64 + r := by simp [sextetBits]
    rw [hbits, finish]
    by_cases hzero : r % 4 = 0
    · rw [if_neg (by simp; omega), if_pos hzero, if_pos (by simp)]
      simp only [Nat.shiftRight_eq_div_pow, map_cons, map_nil, Option.some.injEq,
        List.cons.injEq, and_true]
      omega
    · rw [if_pos (by simp; omega), if_neg hzero]

lemma decodePadding_spec (s : Slice) (i : ℕ) (rest : List ℕ) {l : DecodeLocals}
    {written : List ℕ} (hl : l.Holds pending written) (hval : value char = none)
    (hpad : isPadding char = true) (hcnt : 1 < pending.length)
    (hroom : written.length + (pending.length - 1) ≤ l.output.length) :
    ∃ exit, decodePadding s i char rest l = .ok exit ∧
      LoopAgrees (after written (feed step (char :: rest) (.sextets pending))) l.output.length
        (.inr exit) := by
  have hpend := hl.pending_length
  have hfin := finish_of_bits hl.values (by omega : pending.length = 2 ∨ pending.length = 3)
  rw [decodePadding]
  simp only [hl.count_eq, hl.bits_eq, hl.index_eq]
  by_cases hbad : pending.length = 3 ∧ sextetBits pending &&& 0x03 ≠ 0 ∨
      pending.length ≠ 3 ∧ sextetBits pending &&& 0x0F ≠ 0
  · rw [if_pos hbad] at hfin ⊢
    have hstep : step (.sextets pending) char = .error () := by
      simp only [step, hval, hpad, hfin]
    refine ⟨_, rfl, ?_⟩
    show after written _ = _
    rw [feed_cons_error hstep, after_error]
  · rw [if_neg hbad] at hfin ⊢
    generalize hbytes : (if pending.length = 3 then
      [sextetBits pending >>> 10, sextetBits pending >>> 2] else
      [sextetBits pending >>> 4]) = bytes at hfin ⊢
    have hlen : bytes.length = pending.length - 1 := by
      rw [← hbytes]
      split_ifs with hthree
      · simp [hthree]
      · simp
        omega
    obtain ⟨output, hwrite, hshared, hsize⟩ :=
      writeAll_spec bytes hl.written_prefix (by rw [hlen]; exact hroom)
    rw [hwrite, ok_bind]
    generalize hexp : (3 - pending.length) * 3 + (if char = charPercent then 2 else 0) =
      expected
    have hle : expected ≤ 5 := by
      rw [← hexp]
      split_ifs <;> omega
    have hfeed : feed step (char :: rest) (.sextets pending) =
        after (bytes.map (· % 256)) (feed step rest (.padding expected)) := by
      rw [feed_cons_ok (step_finish hval hpad hfin), hexp]
    rw [encodePaddingState, check_of (decide_eq_true hle), ok_bind, ok_bind, hfeed, after_after]
    rcases checkPadding_spec s.input rest s.last hle with
      ⟨expected', hle', hrest, hcheck⟩ | ⟨hrest, e, hcheck⟩
    · rw [hcheck, hrest, ok_bind]
      exact ⟨_, rfl, _, expected', rfl, hle', rfl, by rwa [append_nil], hsize⟩
    · rw [hcheck, hrest, ok_bind]
      exact ⟨_, rfl, rfl⟩

section

variable {char : ℕ} (rest : List ℕ) {l : DecodeLocals} {pending written : List ℕ}

lemma decodeLoop_value (s : Slice) (i : ℕ) (hl : l.Holds pending written)
    {v : ℕ} (hval : value (char % 128) = some v)
    (hroom : written.length + needed pending.length (char :: rest) ≤ l.output.length) :
    ∃ l' pending' out, decodeLoop s i (char :: rest) l = decodeLoop s (i + 1) rest l' ∧
      l'.Holds pending' (written ++ out) ∧ l'.output.length = l.output.length ∧
      l'.charOr = l.charOr ||| char ∧
      (written ++ out).length + needed pending'.length rest ≤ l'.output.length ∧
      (value char = some v → step (.sextets pending) char = .ok (out, .sextets pending')) := by
  have hpend := hl.pending_length
  have hv := value_lt hval
  have hbits := sextetBits_snoc hpend hl.values hv
  have hcode : codeOf (char % 128) = v := by rw [codeOf, hval]
  simp only [needed, hval] at hroom
  rw [decodeLoop]
  simp only [read_inverseAlphabet, ok_bind, hcode, Int.toNat_natCast, hl.bits_eq, hbits,
    hl.count_eq]
  rw [if_pos (Int.natCast_nonneg v), show (3 : ℕ) = 2 ^ 2 - 1 from rfl,
    Nat.and_two_pow_sub_one_eq_mod]
  by_cases hfull : pending.length = 3
  · obtain ⟨p, q, r, rfl⟩ := length_eq_three.mp hfull
    rw [if_pos hfull] at hroom
    obtain ⟨output, hwrite, hshared, hsize⟩ := writeAll_spec
      [sextetBits [p, q, r, v] >>> 16, sextetBits [p, q, r, v] >>> 8, sextetBits [p, q, r, v]]
      hl.written_prefix (by simp; omega)
    rw [octets_of_bits (hl.values p (by simp)) (hl.values q (by simp)) (hl.values r (by simp)) hv]
      at hshared
    rw [if_pos (by rw [hfull]), hl.index_eq, check_of (decide_eq_true (by omega)), ok_bind]
    simp only [cons_append, nil_append]
    rw [hwrite, ok_bind]
    have hlen : (written ++ octets p q r v).length = written.length + 3 := by simp [octets]
    refine ⟨⟨0, (3 + 1) % 2 ^ 2, l.charOr ||| char, output, written.length + 3⟩, [],
      octets p q r v, rfl, ⟨by simp, by simp, rfl, rfl, hshared, hlen.symm⟩, hsize, rfl, ?_,
      step_group⟩
    rw [hlen, hsize, length_nil]
    omega
  · rw [if_neg hfull] at hroom
    rw [if_neg (by omega)]
    have hlen : (pending ++ [v]).length = pending.length + 1 := by simp
    have hvalues : ∀ w ∈ pending ++ [v], w < 64 := by
      intro w hw
      rcases mem_append.mp hw with hw | hw
      · exact hl.values w hw
      · rwa [mem_singleton.mp hw]
    refine ⟨⟨sextetBits (pending ++ [v]), (pending.length + 1) % 2 ^ 2, l.charOr ||| char, l.output,
      l.outIndex⟩, pending ++ [v], [], rfl, ⟨by omega, hvalues, rfl, ?_, ?_, ?_⟩, rfl, rfl, ?_,
      fun h => step_sextet h (by omega)⟩
    · rw [hlen]
      exact Nat.mod_eq_of_lt (by omega)
    · rw [append_nil]
      exact hl.written_prefix
    · rw [append_nil]
      exact hl.index_eq
    · rwa [append_nil, hlen]

lemma step_other {pending : List ℕ} (hval : value char = none)
    (hpad : ¬(isPadding char = true ∧ 1 < pending.length)) :
    step (.sextets pending) char = .error () := by
  simp only [step, hval]
  split
  next hp hf =>
    refine absurd ⟨hp, ?_⟩ hpad
    match pending, hf with
    | [p, q], _ => simp
    | [p, q, r], _ => simp
  next => rfl

lemma decodeLoop_other (s : Slice) (i : ℕ) (hl : l.Holds pending written)
    (hval : value (char % 128) = none)
    (hroom : written.length + needed pending.length (char :: rest) ≤ l.output.length) :
    ∃ exit, decodeLoop s i (char :: rest) l = .ok exit ∧
      LoopAgrees (remains l.charOr written (char :: rest) pending) l.output.length exit := by
  have hcode : codeOf (char % 128) = if isPadding (char % 128) then -1 else -2 := by
    rw [codeOf, hval]
  have hnegative : ¬0 ≤ codeOf (char % 128) := by
    rw [hcode]
    split_ifs <;> decide
  have hminus : codeOf (char % 128) = -1 ↔ isPadding (char % 128) = true := by
    rw [hcode]
    split_ifs with h <;> simp [h]
  simp only [needed, hval] at hroom
  rw [decodeLoop]
  simp only [read_inverseAlphabet, ok_bind, if_neg hnegative, hminus, hl.count_eq]
  by_cases hor : l.charOr ||| char ≤ 127
  · have hchar : char % 128 = char := Nat.mod_eq_of_lt (Nat.lt_succ_of_le (or_le_ascii.mp hor).2)
    rw [hchar] at hval ⊢
    by_cases hpad : isPadding char = true ∧ 1 < pending.length
    · rw [if_pos hpad] at hroom ⊢
      rw [if_neg (not_lt.mpr hor), ← hl.count_eq]
      have hholds : DecodeLocals.Holds { l with charOr := l.charOr ||| char } pending written :=
        ⟨hl.pending_length, hl.values, hl.bits_eq, hl.count_eq, hl.written_prefix, hl.index_eq⟩
      obtain ⟨exit, hdec, hexit⟩ :=
        decodePadding_spec s i rest hholds hval hpad.1 hpad.2 hroom
      refine ⟨.inr exit, ?_, ?_⟩
      · rw [hdec, ok_bind]
      · rwa [remains, if_pos (or_le_ascii.mp hor).1]
    · rw [if_neg hpad]
      exact ⟨_, rfl, remains_cons_error written rest (step_other hval hpad)⟩
  · have herror := remains_cons_not_ascii (not_le.mp hor) written rest pending
    split_ifs
    · exact ⟨_, rfl, herror⟩
    · omega
    · exact ⟨_, rfl, herror⟩

end

/-- A chunk with room for what is written ends as the machine says. -/
lemma decodeLoop_spec (s : Slice) (chars : List ℕ) (i : ℕ) {l : DecodeLocals}
    {pending written : List ℕ} (hl : l.Holds pending written)
    (hroom : written.length + needed pending.length chars ≤ l.output.length) :
    ∃ exit, decodeLoop s i chars l = .ok exit ∧
      LoopAgrees (remains l.charOr written chars pending) l.output.length exit := by
  induction chars generalizing i l pending written with
  | nil =>
    refine ⟨_, rfl, ?_⟩
    rw [LoopAgrees, remains, feed_nil, after_ok, append_nil]
    split_ifs
    · exact ⟨pending, written, rfl, hl, rfl⟩
    · rfl
  | cons char rest ih =>
    cases hval : value (char % 128) with
    | some v =>
      obtain ⟨l', pending', out, hloop, hl', hsize, hor, hroom', hstep⟩ :=
        decodeLoop_value rest s i hl hval hroom
      obtain ⟨exit, hrest, hexit⟩ := ih (i + 1) hl' hroom'
      refine ⟨exit, hloop.trans hrest, ?_⟩
      have hremains : remains l.charOr written (char :: rest) pending =
          remains l'.charOr (written ++ out) rest pending' := by
        rw [hor]
        by_cases hascii : l.charOr ||| char ≤ 127
        · have hchar : char % 128 = char :=
            Nat.mod_eq_of_lt (Nat.lt_succ_of_le (or_le_ascii.mp hascii).2)
          rw [hchar] at hval
          exact remains_cons_ok hascii written rest (hstep hval)
        · rw [remains_cons_not_ascii (not_le.mp hascii), remains, if_neg hascii]
      rwa [hremains, ← hsize]
    | none => exact decodeLoop_other rest s i hl hval hroom

end DartSdk.Base64
