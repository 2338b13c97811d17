import DartSdk.Base64Decoding

/-!
Base64 in chunks. The buffer of a chunk has room for what the decoder writes until an error, and
it is full when there is none. So the decoder accepts the padded encodings with characters of
either alphabet, however they are divided into chunks, and gives their bytes. The sinks hand on
every buffer and the end of the input. `_Utf8Base64EncoderSink` tells of the end only with a last
buffer, and `_Base64DecoderSink` only when its last slice has characters, so both may leave the sink
below open.
-/

namespace DartSdk.Base64

open Checked Buffers Base64Format Transducers List Nat

section

variable {chars rest : List ℕ}

lemma skip_suffix {matching : ℕ → Bool}
    (h : skip matching chars = some rest) : ∃ after, chars = after ++ rest := by
  match chars with
  | [] =>
    cases h
    exact ⟨[], rfl⟩
  | char :: before =>
    rw [skip] at h
    split_ifs at h
    · cases h
      exact ⟨[char], rfl⟩
    · cases h
      exact ⟨[], rfl⟩

lemma trimPaddingChars_succ (n : ℕ) (chars : List ℕ) (newEnd : ℕ) :
    trimPaddingChars (n + 1) chars newEnd = newEnd ∨
      ∃ after c before, chars = after ++ c :: before ∧ isPadding c = true ∧
        trimPaddingChars (n + 1) chars newEnd = trimPaddingChars n before before.length := by
  match chars with
  | [] => exact .inl rfl
  | char :: before =>
    rw [trimPaddingChars]
    by_cases hequals : char = paddingChar
    · exact .inr ⟨[], char, before, rfl, decide_eq_true (.inl hequals), if_pos hequals⟩
    rw [if_neg hequals]
    cases hd : skip (fun c => c ||| 0x20 == charD) (char :: before) with
    | none => exact .inl rfl
    | some chars1 =>
      obtain ⟨after1, h1⟩ := skip_suffix hd
      cases h3 : skip (fun c => c == char3) chars1 with
      | none => exact .inl (by simp only [h3])
      | some chars2 =>
        obtain ⟨after2, h2⟩ := skip_suffix h3
        match chars2 with
        | [] => exact .inl (by simp only [h3])
        | c :: rest =>
          simp only [h3]
          by_cases hpercent : c = charPercent
          · refine .inr ⟨after1 ++ after2, c, rest, ?_, decide_eq_true (.inr hpercent),
              if_pos hpercent⟩
            rw [h1, h2, append_assoc]
          · exact .inl (if_neg hpercent)

lemma trimPaddingChars_cases (n : ℕ) (chars : List ℕ) (newEnd : ℕ) :
    trimPaddingChars n chars newEnd = newEnd ∨
      ∃ after c before, chars = after ++ c :: before ∧ isPadding c = true ∧
        trimPaddingChars n chars newEnd = before.length := by
  induction n generalizing chars newEnd with
  | zero => exact .inl (by rw [trimPaddingChars])
  | succ n ih =>
    rcases trimPaddingChars_succ n chars newEnd with h | ⟨after, c, before, rfl, hpad, htrim⟩
    · exact .inl h
    right
    rcases ih before before.length with h | ⟨after', c', before', hpre, hpadding', h⟩
    · exact ⟨after, c, before, rfl, hpad, htrim.trans h⟩
    · refine ⟨after ++ c :: after', c', before', ?_, hpadding', htrim.trans h⟩
      rw [append_assoc, cons_append, ← hpre]

lemma trimPaddingChars_le (n : ℕ) (chars : List ℕ) :
    trimPaddingChars n chars chars.length ≤ chars.length := by
  rcases trimPaddingChars_cases n chars chars.length with h | ⟨after, c, before, hchars, _, h⟩
  · exact h.le
  · rw [h, hchars, length_append, length_cons]
    omega

/-- Padding, or a part of it at the end of a chunk. -/
def PartialPad (chars : List ℕ) : Prop :=
  chars ∈ [[0x3D], [0x25], [0x25, 0x33], [0x25, 0x33, 0x44], [0x25, 0x33, 0x64]]

lemma trimPaddingChars_pad {pad : List ℕ} (h : PartialPad pad) (n : ℕ) (before : List ℕ)
    (newEnd : ℕ) :
    trimPaddingChars (n + 1) (pad.reverse ++ before) newEnd =
      trimPaddingChars n before before.length := by
  simp only [PartialPad, mem_cons, not_mem_nil, or_false] at h
  rcases h with rfl | rfl | rfl | rfl | rfl <;>
    simp [trimPaddingChars, skip, paddingChar, charPercent, charD, char3]

lemma value_padding {c : ℕ} (h : isPadding c = true) : value (c % 128) = none ∧ c < 128 := by
  have h' : c = paddingChar ∨ c = charPercent := by simpa [isPadding] using h
  rcases h' with rfl | rfl
  · decide
  · decide

lemma trimPaddingChars_none (n : ℕ) (newEnd : ℕ)
    (h : ∀ c ∈ chars, isPadding c = false) : trimPaddingChars n chars newEnd = newEnd := by
  rcases trimPaddingChars_cases n chars newEnd with htrim | ⟨after, c, before, hchars, hpad, _⟩
  · exact htrim
  · have := h c (by simp [hchars])
    rw [this] at hpad
    cases hpad

variable {first out : List ℕ}

lemma needed_append (hfirst : ∀ c ∈ first, (value (c % 128)).isSome = true)
    (second : List ℕ) {count : ℕ} (hcnt : count < 4) :
    needed count (first ++ second) = 3 * ((count + first.length) / 4) +
      needed ((count + first.length) % 4) second := by
  induction first generalizing count with
  | nil =>
    rw [nil_append, length_nil, add_zero, mod_eq_of_lt hcnt,
      div_eq_of_lt hcnt, mul_zero, zero_add]
  | cons c first ih =>
    obtain ⟨v, hv⟩ := Option.isSome_iff_exists.mp (hfirst c (by simp))
    have hrest : ∀ c ∈ first, (value (c % 128)).isSome = true := fun c hc => hfirst c (by simp [hc])
    rw [cons_append, needed]
    simp only [hv, length_cons]
    split_ifs with hthree
    · rw [ih hrest (by decide), hthree, show 0 + first.length = first.length by omega,
        show 3 + (first.length + 1) = first.length + 4 by omega, add_mod_right,
        add_div_right _ (by decide)]
      omega
    · rw [ih hrest (by omega), show count + 1 + first.length = count + (first.length + 1) by omega]

lemma exists_span (chars : List ℕ) :
    ∃ first second, chars = first ++ second ∧ (∀ c ∈ first, (value (c % 128)).isSome = true) ∧
      (second = [] ∨ ∃ c rest, second = c :: rest ∧ value (c % 128) = none) := by
  induction chars with
  | nil => exact ⟨[], [], rfl, by simp, .inl rfl⟩
  | cons c chars ih =>
    obtain ⟨first, second, rfl, hfirst, hsecond⟩ := ih
    cases hval : value (c % 128) with
    | none => exact ⟨[], c :: (first ++ second), rfl, by simp, .inr ⟨c, _, rfl, hval⟩⟩
    | some v =>
      refine ⟨c :: first, second, rfl, ?_, hsecond⟩
      intro d hd
      rcases mem_cons.mp hd with rfl | hd
      · rw [hval]
        rfl
      · exact hfirst d hd

/-- The length of the buffer, for so many characters of a group before the chunk. -/
def roomFor (count : ℕ) (chars : List ℕ) : ℕ :=
  let paddingStart := trimPaddingChars 2 chars.reverse chars.length
  (count + paddingStart) / 4 * 3 + if (count + paddingStart) % 4 ≠ 0 ∧ paddingStart < chars.length
    then (count + paddingStart) % 4 - 1 else 0

lemma length_le_trim {second : List ℕ}
    (hfirst : ∀ c ∈ first, (value (c % 128)).isSome = true) (n : ℕ) :
    first.length ≤ trimPaddingChars n (first ++ second).reverse (first ++ second).length := by
  rcases trimPaddingChars_cases n (first ++ second).reverse (first ++ second).length with
    h | ⟨after, c, before, hchars, hpad, h⟩
  · rw [h, length_append]
    omega
  · rw [h]
    by_contra hlt
    have hchars' : first ++ second = before.reverse ++ c :: after.reverse := by
      rw [← reverse_reverse (first ++ second), hchars]
      simp
    have hget : (first ++ second)[before.length]? = some c := by
      rw [hchars', List.getElem?_append_right (by simp)]
      simp
    rw [List.getElem?_append_left (by omega)] at hget
    have hsome := hfirst c (mem_of_getElem? hget)
    rw [(value_padding hpad).1] at hsome
    cases hsome

lemma needed_le_roomFor {count : ℕ} (hcnt : count < 4) (chars : List ℕ) :
    needed count chars ≤ roomFor count chars := by
  obtain ⟨first, second, rfl, hfirst, hsecond⟩ := exists_span chars
  have hle := @length_le_trim first second hfirst 2
  have hge := trimPaddingChars_le 2 (first ++ second).reverse
  rw [length_reverse] at hge
  rw [needed_append hfirst second hcnt, roomFor]
  rcases hsecond with rfl | ⟨c, rest, rfl, hval⟩
  · rw [append_nil] at hle hge ⊢
    simp only [le_antisymm hge hle, needed]
    omega
  · simp only [needed, hval]
    -- Only a padding character at the very end leaves no room, and it is trimmed.
    have hend : isPadding c = true → rest = [] →
        trimPaddingChars 2 (first ++ c :: rest).reverse (first ++ c :: rest).length ≤
          first.length := by
      rintro hpadding rfl
      have hpart : PartialPad [c] := by
        have hc : c = paddingChar ∨ c = charPercent := by simpa [isPadding] using hpadding
        rcases hc with rfl | rfl
        · exact mem_cons_self
        · exact mem_cons_of_mem _ mem_cons_self
      rw [reverse_append, trimPaddingChars_pad hpart]
      simpa using trimPaddingChars_le 1 first.reverse
    have hlen : (first ++ c :: rest).length = first.length + (rest.length + 1) := by simp
    have hnil : rest = [] ↔ rest.length = 0 := length_eq_zero_iff.symm
    rw [hnil] at hend
    split_ifs with hpad hroom hroom
    · omega
    · have := hend hpad.1
      omega
    · omega
    · omega

variable {pending : List ℕ} {m : Mode}

/-- What the machine accepts in a chunk, with the number of bytes. -/
lemma feed_sextets_inv (hpend : pending.length < 4)
    (h : feed step chars (.sextets pending) = .ok (out, m)) :
    ((∀ c ∈ chars, (value c).isSome = true) ∧ (∃ pending', m = .sextets pending') ∧
      out.length = 3 * ((pending.length + chars.length) / 4)) ∨
    ∃ first c rest others, chars = first ++ c :: rest ∧ (∀ c ∈ first, (value c).isSome = true) ∧
      isPadding c = true ∧ (others = 0 ∨ others = 3) ∧
      1 < (pending.length + first.length) % 4 ∧
      out.length = 3 * ((pending.length + first.length) / 4) +
        ((pending.length + first.length) % 4 - 1) ∧
      ∃ expected, feed step rest (.padding (others + if c = charPercent then 2 else 0)) =
        .ok ([], .padding expected) := by
  induction chars generalizing pending out with
  | nil =>
    cases h
    refine .inl ⟨by simp, ⟨pending, rfl⟩, ?_⟩
    simp only [length_nil, add_zero]
    omega
  | cons char rest ih =>
    obtain ⟨first, s', others, hstep, hrest, rfl⟩ := feed_cons_inv h
    rcases step_sextets_inv hstep with
      ⟨v, hval, hnext⟩ | ⟨hval, hpad, hfin, rfl⟩
    · -- A character with a value moves the count on, and four of them are three bytes.
      obtain ⟨pending', rfl, hlt, hcnt⟩ : ∃ pending', s' = .sextets pending' ∧
          pending'.length < 4 ∧ ∀ n, first.length + 3 * ((pending'.length + n) / 4) =
            3 * ((pending.length + (n + 1)) / 4) ∧
            (pending'.length + n) % 4 = (pending.length + (n + 1)) % 4 := by
        rcases hnext with ⟨p, q, r, rfl, rfl, rfl⟩ | ⟨rfl, hthree, rfl⟩
        · refine ⟨[], rfl, by simp, ?_⟩
          simp only [octets, length_cons, length_nil]
          omega
        · refine ⟨pending ++ [v], rfl, ?_, ?_⟩
          · rw [length_append, length_singleton]
            omega
          · intro n
            rw [length_append, length_singleton, length_nil, zero_add,
              add_assoc, add_comm 1 n]
            exact ⟨rfl, rfl⟩
      have hsome : (value char).isSome = true := by
        rw [hval]
        rfl
      rcases ih hlt hrest with ⟨hall, hm, hlen⟩ |
        ⟨first', c, rest', others', rfl, hall, hpad, hothers, hmod, hlen, hfeed⟩
      · refine .inl ⟨?_, hm, ?_⟩
        · intro c hc
          rcases mem_cons.mp hc with rfl | hc
          · exact hsome
          · exact hall c hc
        · rw [length_append, hlen, length_cons]
          exact (hcnt rest.length).1
      · refine .inr ⟨char :: first', c, rest', others', rfl, ?_, hpad, hothers, ?_, ?_, hfeed⟩
        · intro c hc
          rcases mem_cons.mp hc with rfl | hc
          · exact hsome
          · exact hall c hc
        · rw [length_cons, ← (hcnt first'.length).2]
          exact hmod
        · rw [length_append, hlen, length_cons, ← add_assoc,
            (hcnt first'.length).1, (hcnt first'.length).2]
    · obtain ⟨rfl, expected, rfl⟩ := feed_padding_inv hrest
      have hshape : (pending.length = 2 ∨ pending.length = 3) ∧
          first.length = pending.length - 1 := by
        rcases pending with _ | ⟨p, _ | ⟨q, _ | ⟨r, _ | _⟩⟩⟩
        case cons.cons.nil | cons.cons.cons.nil =>
          rw [finish] at hfin
          split_ifs at hfin
          cases hfin
          simp
        all_goals cases hfin
      refine .inr ⟨[], char, rest, _, rfl, by simp, hpad, ?_, ?_, ?_, expected, hrest⟩
      · omega
      · simp only [length_nil]
        omega
      · rw [append_nil, hshape.2]
        simp only [length_nil]
        omega

/-- The characters are padding that the machine reads. -/
def Reads (expected : ℕ) (chars : List ℕ) : Prop :=
  ∃ m, feed step chars (.padding expected) = .ok ([], m)

variable {char : ℕ}

lemma Reads.cons_inv {expected : ℕ} (h : Reads expected (char :: rest)) :
    ∃ expected', padStep expected char = some expected' ∧ Reads expected' rest := by
  obtain ⟨m, h⟩ := h
  obtain ⟨first, s', others, hstep, hrest, hout⟩ := feed_cons_inv h
  obtain ⟨rfl, expected', rfl, hpad⟩ := step_padding_inv hstep
  cases hout
  exact ⟨expected', hpad, m, hrest⟩

lemma reads_zero (h : Reads 0 chars) : chars = [] := by
  cases chars with
  | nil => rfl
  | cons char rest =>
    obtain ⟨expected', hpad, _⟩ := h.cons_inv
    simp [padStep] at hpad

lemma reads_three (h : Reads 3 (char :: rest)) :
    isPadding char = true ∧ Reads (0 + if char = charPercent then 2 else 0) rest := by
  obtain ⟨expected', hpad, hrest⟩ := h.cons_inv
  rw [padStep] at hpad
  split_ifs at hpad with hequals hpercent hno hno
  · cases hpad
    rw [hequals.2, if_neg (by decide)]
    exact ⟨rfl, hrest⟩
  · cases hpad
    rw [hpercent.2, if_pos rfl]
    exact ⟨rfl, hrest⟩
  · omega
  · omega

variable {others : ℕ}

lemma reads_escape (hothers : others = 0 ∨ others = 3) (h : Reads (others + 2) chars) :
    chars = [] ∨ chars = [0x33] ∨ ∃ d rest, (d = 0x44 ∨ d = 0x64) ∧ chars = 0x33 :: d :: rest ∧
      Reads others rest := by
  cases chars with
  | nil => exact .inl rfl
  | cons char rest =>
    obtain ⟨expected1, hpad1, hrest1⟩ := h.cons_inv
    obtain ⟨rfl, rfl⟩ : char = 0x33 ∧ expected1 = others + 1 := by
      rw [padStep, if_neg (by omega), if_neg (by omega)] at hpad1
      split_ifs at hpad1 with h3 hd
      · cases hpad1
        exact ⟨h3.2, rfl⟩
      · omega
    cases rest with
    | nil => exact .inr (.inl rfl)
    | cons d rest =>
      obtain ⟨expected2, hpad2, hrest2⟩ := hrest1.cons_inv
      obtain ⟨hd, rfl⟩ : (d = 0x44 ∨ d = 0x64) ∧ expected2 = others := by
        rw [padStep, if_neg (by omega), if_neg (by omega), if_neg (by omega)] at hpad2
        split_ifs at hpad2 with hd
        cases hpad2
        exact ⟨hd.2, rfl⟩
      exact .inr (.inr ⟨d, rest, hd, rfl, hrest2⟩)

lemma partialPad_of_reads (hpad : isPadding char = true) (hothers : others = 0 ∨ others = 3)
    (h : Reads (others + if char = charPercent then 2 else 0) rest) :
    ∃ pad rest', PartialPad pad ∧ char :: rest = pad ++ rest' ∧
      (rest' = [] ∨ Reads others rest') := by
  have hpadding' : char = paddingChar ∨ char = charPercent := by simpa [isPadding] using hpad
  rcases hpadding' with rfl | rfl
  · rw [if_neg (by decide)] at h
    exact ⟨[0x3D], rest, by simp [PartialPad], rfl, .inr h⟩
  · rw [if_pos rfl] at h
    rcases reads_escape hothers h with rfl | rfl | ⟨d, rest', hd, rfl, hrest'⟩
    · exact ⟨[0x25], [], by simp [PartialPad], rfl, .inl rfl⟩
    · exact ⟨[0x25, 0x33], [], by simp [PartialPad], rfl, .inl rfl⟩
    · refine ⟨[0x25, 0x33, d], rest', ?_, rfl, .inr hrest'⟩
      rcases hd with rfl | rfl
      · simp [PartialPad]
      · simp [PartialPad]

lemma trim_of_reads (hfirst : ∀ c ∈ first, isPadding c = false)
    (hpadding : isPadding char = true) (hothers : others = 0 ∨ others = 3)
    (h : Reads (others + if char = charPercent then 2 else 0) rest) (newEnd : ℕ) :
    trimPaddingChars 2 (first ++ char :: rest).reverse newEnd = first.length := by
  obtain ⟨pad, rest', hpad, heq, hrest'⟩ := partialPad_of_reads hpadding hothers h
  have hnone (n : ℕ) : trimPaddingChars n first.reverse first.reverse.length = first.length := by
    rw [trimPaddingChars_none n _ (by simpa using hfirst), length_reverse]
  rw [heq]
  match rest', hrest' with
  | [], _ => rw [append_nil, reverse_append, trimPaddingChars_pad hpad, hnone]
  | c :: rest', hrest' =>
    have hreads : Reads others (c :: rest') := by
      rcases hrest' with hnil | hreads
      · cases hnil
      · exact hreads
    obtain rfl | rfl := hothers
    · cases reads_zero hreads
    · obtain ⟨hpadding', hlast⟩ := reads_three hreads
      obtain ⟨pad', rest'', hpad', heq', hrest''⟩ :=
        partialPad_of_reads hpadding' (.inl rfl) hlast
      have hnil : rest'' = [] := hrest''.elim id reads_zero
      subst hnil
      rw [heq', append_nil, ← append_assoc, reverse_append,
        trimPaddingChars_pad hpad', reverse_append, trimPaddingChars_pad hpad, hnone]

/-- The buffer of an accepted chunk has exactly the length of the output. -/
lemma length_eq_roomFor (hpend : pending.length < 4)
    (h : feed step chars (.sextets pending) = .ok (out, m)) :
    out.length = roomFor pending.length chars := by
  have hnot {c : ℕ} (hc : (value c).isSome = true) : isPadding c = false := by
    by_contra hpad
    obtain ⟨hnone, hlt⟩ := value_padding (Bool.not_eq_false _ ▸ hpad)
    rw [mod_eq_of_lt hlt] at hnone
    rw [hnone] at hc
    cases hc
  rw [roomFor]
  rcases feed_sextets_inv hpend h with ⟨hall, _, hlen⟩ |
    ⟨first, c, rest, others, rfl, hall, hpad, hothers, hmod, hlen, expected, hfeed⟩
  · rw [trimPaddingChars_none 2 _ (fun c hc => hnot (hall c (mem_reverse.mp hc))), hlen,
      if_neg (fun h => lt_irrefl _ h.2)]
    omega
  · rw [trim_of_reads (fun c hc => hnot (hall c hc)) hpad hothers ⟨_, hfeed⟩, hlen,
      if_pos ⟨by omega, by simp⟩, mul_comm]

/-- The state of the decoder after what the machine has read. -/
def Stands (state : ℤ) : Mode → Prop
  | .sextets pending => pending.length < 4 ∧ (∀ v ∈ pending, v < 64) ∧
      state = ((sextetBits pending <<< 2 ||| pending.length : ℕ) : ℤ)
  | .padding expected => expected ≤ 5 ∧ state = -expected - 1

lemma state_of_sextets (h : pending.length < 4) :
    stateBits (sextetBits pending <<< 2 ||| pending.length) = sextetBits pending ∧
      stateCount (sextetBits pending <<< 2 ||| pending.length) = pending.length := by
  rw [stateBits, stateCount, ← shiftLeft_add_eq_or_of_lt (by omega : pending.length < 2 ^ 2),
    shiftLeft_eq, show (3 : ℕ) = 2 ^ 2 - 1 from rfl, and_two_pow_sub_one_eq_mod,
    shiftRight_eq_div_pow]
  omega

lemma bufferLength_eq (s : Slice) (h : pending.length < 4) :
    bufferLength s ((sextetBits pending <<< 2 ||| pending.length : ℕ) : ℤ) =
      .ok (roomFor pending.length s.items) := by
  rw [bufferLength, check_of (decide_eq_true (Int.natCast_nonneg _)), ok_bind]
  simp only [Int.toNat_natCast, (state_of_sextets h).2, roomFor, s.items_length]
  rw [show (3 : ℕ) = 2 ^ 2 - 1 from rfl, and_two_pow_sub_one_eq_mod, shiftRight_eq_div_pow]

lemma decodeChunk_spec (s : Slice) (hpend : pending.length < 4) (hvalues : ∀ v ∈ pending, v < 64) :
    (∃ out m state, feed step s.items (.sextets pending) = .ok (out, m) ∧ Stands state m ∧
      decodeChunk s (List.replicate (roomFor pending.length s.items) 0)
        ((sextetBits pending <<< 2 ||| pending.length : ℕ) : ℤ) = .ok (.ok (out, state))) ∨
    feed step s.items (.sextets pending) = .error () ∧
      ∃ e, decodeChunk s (List.replicate (roomFor pending.length s.items) 0)
        ((sextetBits pending <<< 2 ||| pending.length : ℕ) : ℤ) = .ok (.error e) := by
  have hfull {out output : List ℕ} {m : Mode}
      (hfeed : feed step s.items (.sextets pending) = .ok (out, m)) (hshared : out <+: output)
      (hsize : output.length = roomFor pending.length s.items) : output = out :=
    eq_of_prefix_full _ _ hshared (hsize.trans (length_eq_roomFor hpend hfeed).symm)
  have hstart : DecodeLocals.Holds ⟨sextetBits pending, pending.length, 0,
      List.replicate (roomFor pending.length s.items) 0, 0⟩ pending [] :=
    ⟨hpend, hvalues, rfl, rfl, nil_prefix, rfl⟩
  obtain ⟨exit, hloop, hexit⟩ := decodeLoop_spec s s.items s.first hstart (by
    simpa using needed_le_roomFor hpend s.items)
  simp only [remains, zero_le, if_true, after_nil, length_replicate] at hexit
  rw [decodeChunk, check_of (by simp [hasSeenPadding]), ok_bind]
  simp only [Int.toNat_natCast, (state_of_sextets hpend).1, (state_of_sextets hpend).2]
  rw [hloop, ok_bind]
  cases exit with
  | inl l =>
    rw [LoopAgrees] at hexit
    by_cases hor : l.charOr ≤ 127
    · simp only [if_pos hor] at hexit ⊢
      obtain ⟨pending', written, hfeed, hl, hsize⟩ := hexit
      have hlt := hl.pending_length
      refine .inl ⟨written, .sextets pending', _, hfeed, ⟨hlt, hl.values, rfl⟩, ?_⟩
      have hmask : pending'.length = pending'.length &&& 3 := by
        rw [show (3 : ℕ) = 2 ^ 2 - 1 from rfl, and_two_pow_sub_one_eq_mod]
        omega
      rw [encodeCharacterState, hl.count_eq, hl.bits_eq, check_of (decide_eq_true hmask), ok_bind,
        ok_bind, hfull hfeed hl.written_prefix hsize]
    · simp only [if_neg hor] at hexit ⊢
      exact .inr ⟨hexit, _, rfl⟩
  | inr exit =>
    cases exit with
    | thrown e => exact .inr ⟨hexit, _, rfl⟩
    | broken => exact .inr ⟨hexit, _, rfl⟩
    | returned output state =>
      obtain ⟨written, expected, hfeed, hle, hstate, hshared, hsize⟩ := hexit
      refine .inl ⟨written, .padding expected, state, hfeed, ⟨hle, hstate⟩, ?_⟩
      rw [hfull hfeed hshared hsize]

variable {state : ℤ}

lemma decode_spec (s : Slice) (h : Stands state m) :
    (∃ out m' buffer state', feed step s.items m = .ok (out, m') ∧ Stands state' m' ∧
      decode s state = .ok (.ok (buffer, state')) ∧ buffer.getD [] = out) ∨
    feed step s.items m = .error () ∧ ∃ e, decode s state = .ok (.error e) := by
  rw [decode]
  match m, h with
  | .padding expected, ⟨hle, hstate⟩ =>
    subst hstate
    have hseen : hasSeenPadding (-(expected : ℤ) - 1) = true := decide_eq_true (by omega)
    rw [if_pos hseen]
    rcases checkPadding_spec s.input s.items s.last hle with
      ⟨expected', hle', hfeed, hcheck⟩ | ⟨hfeed, e, hcheck⟩
    · refine .inl ⟨[], .padding expected', none, _, hfeed, ⟨hle', rfl⟩, ?_, rfl⟩
      rw [hcheck, ok_bind]
    · refine .inr ⟨hfeed, e, ?_⟩
      rw [hcheck, ok_bind]
  | .sextets pending, ⟨hpend, hvalues, hstate⟩ =>
    subst hstate
    rw [if_neg (by simp [hasSeenPadding])]
    by_cases hemp : s.first = s.last
    · have hitems : s.items = [] := by
        rw [← length_eq_zero_iff, s.items_length]
        omega
      rw [if_pos hemp, hitems]
      exact .inl ⟨[], .sextets pending, some [], _, rfl, ⟨hpend, hvalues, rfl⟩, rfl, rfl⟩
    · rw [if_neg hemp, bufferLength_eq s hpend, ok_bind]
      rcases decodeChunk_spec s hpend hvalues with
        ⟨out, m, state', hfeed, hstands, hchunk⟩ | ⟨hfeed, e, hchunk⟩
      · refine .inl ⟨out, m, if 0 < roomFor pending.length s.items then some out else none, state',
          hfeed, hstands, ?_, ?_⟩
        · rw [hchunk, ok_bind]
        · have hlen := length_eq_roomFor hpend hfeed
          split_ifs with hpos
          · rfl
          · exact (length_eq_zero_iff.mp (by omega)).symm
      · refine .inr ⟨hfeed, e, ?_⟩
        rw [hchunk, ok_bind]

/-- The end of the input is accepted where the machine may end. -/
lemma close_spec (input : List ℕ) (last : ℕ) (h : Stands state m) :
    close input last state = .ok () ∧ m.IsFinal ∨
      (∃ e, close input last state = .error e) ∧ ¬m.IsFinal := by
  rw [close]
  match m, h with
  | .padding expected, ⟨hle, hstate⟩ =>
    subst hstate
    by_cases hzero : expected = 0
    · subst hzero
      exact .inl ⟨rfl, rfl⟩
    · rw [if_pos (by omega)]
      exact .inr ⟨⟨_, rfl⟩, hzero⟩
  | .sextets pending, ⟨hpend, hvalues, hstate⟩ =>
    subst hstate
    rw [if_neg (by omega)]
    by_cases hnil : pending = []
    · subst hnil
      exact .inl ⟨rfl, rfl⟩
    · have hpos : 0 < sextetBits pending <<< 2 ||| pending.length :=
        lt_of_lt_of_le (length_pos_of_ne_nil hnil) right_le_or
      rw [if_pos (by exact_mod_cast hpos)]
      exact .inr ⟨⟨_, rfl⟩, hnil⟩

lemma contents_cons (buffer : Option (List ℕ)) (buffers : List (Option (List ℕ))) :
    contents (buffer :: buffers) = buffer.getD [] ++ contents buffers := by
  rw [contents, map_cons, flatten_cons, contents]

lemma decodeChunks_spec (input : List ℕ) (last : ℕ) (slices : List Slice) (h : Stands state m) :
    (∃ out m' buffers, feed step (slices.flatMap Slice.items) m = .ok (out, m') ∧ m'.IsFinal ∧
      decodeChunks input last slices state = .ok (.ok buffers) ∧ contents buffers = out) ∨
    (∀ out m', feed step (slices.flatMap Slice.items) m = .ok (out, m') → ¬m'.IsFinal) ∧
      ∃ e, decodeChunks input last slices state = .ok (.error e) := by
  induction slices generalizing state m with
  | nil =>
    rw [decodeChunks]
    rcases close_spec input last h with ⟨hclose, hfinal⟩ | ⟨⟨e, hclose⟩, hfinal⟩
    · exact .inl ⟨[], m, [], rfl, hfinal, by rw [hclose], rfl⟩
    · refine .inr ⟨?_, e, by rw [hclose]⟩
      intro out m' hfeed
      cases hfeed
      exact hfinal
  | cons s slices ih =>
    rw [decodeChunks, flatMap_cons]
    rcases decode_spec s h with ⟨out, m1, buffer, state1, hfeed, hstands, hdec, hout⟩ |
      ⟨hfeed, e, hdec⟩
    · rw [hdec, ok_bind, feed_append_ok hfeed]
      dsimp only
      rcases ih hstands with ⟨out', m', buffers, hrest, hfinal, hchunks, hcontents⟩ |
        ⟨hrest, e, hchunks⟩
      · rw [hrest, after_ok, hchunks, ok_bind]
        refine .inl ⟨out ++ out', m', buffer :: buffers, rfl, hfinal, rfl, ?_⟩
        rw [contents_cons, hout, hcontents]
      · rw [hchunks, ok_bind]
        refine .inr ⟨?_, e, rfl⟩
        intro out' m' hafter
        cases hcase : feed step (slices.flatMap Slice.items) m1 with
        | error u =>
          rw [hcase] at hafter
          cases hafter
        | ok p =>
          rw [hcase] at hafter
          cases hafter
          exact hrest _ _ hcase
    · rw [hdec, ok_bind, feed_append_error hfeed]
      refine .inr ⟨?_, e, rfl⟩
      intro out m' hfeed'
      cases hfeed'

lemma decodeChunks_of_encodes (slices : List Slice) (input : List ℕ) (last : ℕ) {bytes : List ℕ}
    (h : Encodes value Pad (slices.flatMap Slice.items) bytes) :
    ∃ buffers, decodeChunks input last slices 0 = .ok (.ok buffers) ∧ contents buffers = bytes := by
  have hstart : Stands 0 (.sextets []) := ⟨by decide, by simp, rfl⟩
  obtain ⟨m, hfeed, hfinal⟩ := (feed_iff_encodes _ bytes).mpr h
  rcases decodeChunks_spec input last slices hstart with
    ⟨out, m', buffers, hfeed', _, hdec, hcontents⟩ | ⟨hnot, _⟩
  · rw [hfeed] at hfeed'
    cases hfeed'
    exact ⟨buffers, hdec, hcontents⟩
  · exact absurd hfinal (hnot bytes m hfeed)

lemma decodeChunks_of_not_encodes (slices : List Slice) (input : List ℕ) (last : ℕ)
    (h : ¬∃ bytes, Encodes value Pad (slices.flatMap Slice.items) bytes) :
    ∃ e, decodeChunks input last slices 0 = .ok (.error e) := by
  have hstart : Stands 0 (.sextets []) := ⟨by decide, by simp, rfl⟩
  rcases decodeChunks_spec input last slices hstart with
    ⟨out, m, buffers, hfeed, hfinal, _⟩ | ⟨_, he⟩
  · exact absurd ⟨out, (feed_iff_encodes _ out).mp ⟨m, hfeed, hfinal⟩⟩ h
  · exact he

/-- What the encoder makes of the bytes is decoded to them, in whatever chunks it arrives. -/
theorem decodeChunks_encodeChunks (urlSafe : Bool) (slices : List Slice) (last : Slice)
    (hbytes : ∀ b ∈ slices.flatMap Slice.items ++ last.items, b < 256) :
    ∃ buffers, encodeChunks (alphabetOf urlSafe) last slices 0 = .ok (.ok buffers) ∧
      ∀ received : List Slice, received.flatMap Slice.items = contents buffers →
        ∀ input finish, ∃ decoded, decodeChunks input finish received 0 = .ok (.ok decoded) ∧
          contents decoded = slices.flatMap Slice.items ++ last.items := by
  have hval : ∀ v < 64, value (character (alphabetOf urlSafe) v) = some v := by
    cases urlSafe with
    | false => decide +kernel
    | true => decide +kernel
  obtain ⟨buffers, hbuffers, hcontents⟩ := encodeChunks_spec (isAlphabet_alphabetOf urlSafe) last
    slices (by decide : ([] : List ℕ).length < 3) (by simp) hbytes
  refine ⟨buffers, hbuffers, fun received h input finish => ?_⟩
  apply decodeChunks_of_encodes
  rw [h, hcontents]
  exact encodes_encode hval mem_cons_self _ hbytes

/-- Four bytes that come in two slices, the first one cut from a longer list, become `BfoRAA==`,
which comes back from three slices. -/
theorem decodeChunks_encodeChunks_four :
    ∃ decoded, decodeChunks [] 0 [⟨[0x42], 0, 1, by decide, by decide⟩,
        ⟨[0x66, 0x6F, 0x52, 0x41, 0x41], 0, 5, by decide, by decide⟩,
        ⟨[0x3D, 0x3D], 0, 2, by decide, by decide⟩] 0 =
      .ok (.ok decoded) ∧ contents decoded = [5, 250, 17, 0] := by
  obtain ⟨buffers, h, hround⟩ := decodeChunks_encodeChunks true
    [⟨[0, 5, 250], 1, 3, by decide, by decide⟩] ⟨[17, 0], 0, 2, by decide, by decide⟩ (by decide)
  refine hround _ ?_ [] 0
  cases h
  rfl

/-- The codec does not depend on the chunks. The encoder encodes the whole list; the decoder gives
the bytes of a padded encoding in either alphabet, and a `FormatException` otherwise. -/
theorem codec_chunk_independent :
    (∀ (urlSafe : Bool) (slices : List Slice) (last : Slice),
      (∀ b ∈ slices.flatMap Slice.items ++ last.items, b < 256) →
      ∃ buffers, encodeChunks (alphabetOf urlSafe) last slices 0 = .ok (.ok buffers) ∧
        contents buffers = Base64Format.encode (character (alphabetOf urlSafe)) paddingChar
          (slices.flatMap Slice.items ++ last.items)) ∧
    ∀ (slices : List Slice) (input : List ℕ) (last : ℕ),
      (∀ bytes, Encodes value Pad (slices.flatMap Slice.items) bytes →
        ∃ buffers, decodeChunks input last slices 0 = .ok (.ok buffers) ∧
          contents buffers = bytes) ∧
      ((¬∃ bytes, Encodes value Pad (slices.flatMap Slice.items) bytes) →
        ∃ e, decodeChunks input last slices 0 = .ok (.error e)) := by
  constructor
  · intro urlSafe slices last hbytes
    exact encodeChunks_spec (isAlphabet_alphabetOf urlSafe) last slices
      (by decide : ([] : List ℕ).length < 3) (by simp) hbytes
  · intro slices input last
    exact ⟨fun bytes => decodeChunks_of_encodes slices input last,
      decodeChunks_of_not_encodes slices input last⟩

/-- The bytes 1 and 2 in two chunks, and their encoding with the padding in two chunks. -/
theorem codec_chunk_independent_two :
    (∃ buffers, encodeChunks (alphabetOf false) ⟨[2], 0, 1, by decide, by decide⟩
        [⟨[1], 0, 1, by decide, by decide⟩] 0 = .ok (.ok buffers) ∧
      contents buffers = [0x41, 0x51, 0x49, 0x3D]) ∧
    ∃ buffers, decodeChunks [0x33, 0x44] 2
        [⟨[0x41, 0x51, 0x49, 0x25], 0, 4, by decide, by decide⟩,
          ⟨[0x33, 0x44], 0, 2, by decide, by decide⟩] 0 = .ok (.ok buffers) ∧
      contents buffers = [1, 2] := by
  constructor
  · exact codec_chunk_independent.1 false [⟨[1], 0, 1, by decide, by decide⟩]
      ⟨[2], 0, 1, by decide, by decide⟩ (by decide)
  · refine (codec_chunk_independent.2 _ [0x33, 0x44] 2).1 [1, 2] ?_
    exact @Encodes.two value Pad 0x41 0x51 0x49 0 16 8 [0x25, 0x33, 0x44] (by decide) (by decide)
      (by decide) (by simp [Pad]) (by decide)

def valueIn (urlSafe : Bool) (char : ℕ) : Option ℕ := (alphabetOf urlSafe).idxOf? char

/-- `-+-+` mixes the alphabets, so it is an encoding in neither, and yet it is decoded. -/
theorem mixed_alphabets_decoded :
    decodeChunks [0x2D, 0x2B, 0x2D, 0x2B] 4
        [⟨[0x2D, 0x2B, 0x2D, 0x2B], 0, 4, by decide, by decide⟩] 0 =
        .ok (.ok [some [0xFB, 0xEF, 0xBE]]) ∧
      ∀ urlSafe bytes, ¬Encodes (valueIn urlSafe) Pad [0x2D, 0x2B, 0x2D, 0x2B] bytes := by
  refine ⟨by decide, ?_⟩
  intro urlSafe bytes h
  obtain ⟨⟨p, hminus⟩, q, hplus⟩ := h.first_two
  cases urlSafe with
  | false =>
    have hnone : valueIn false 0x2D = none := by decide
    cases hnone.symm.trans hminus
  | true =>
    have hnone : valueIn true 0x2B = none := by decide
    cases hnone.symm.trans hplus

end

/-- What the sink below is told; a slice of bytes may be the last one. -/
inductive Event
  | data (items : List ℕ) (isLast : Bool)
  | close
  deriving DecidableEq

def Event.items : Event → List ℕ
  | .data items _ => items
  | .close => []

def Event.isEnd : Event → Bool
  | .data _ isLast => isLast
  | .close => true

/-- How the input ends. -/
inductive Ending
  | close
  | last (s : Slice)

def Slice.whole (items : List ℕ) : Slice := ⟨items, 0, items.length, Nat.zero_le _, le_refl _⟩

/-- The slice that comes with `isLast` in an encoder sink. -/
def Ending.slice : Ending → Slice
  | .close => Slice.whole []
  | .last s => s

/-- The calls to the sink below for a buffer, unless it is null. -/
def passOn (buffer : Option (List ℕ)) (isLast : Bool) : List Event :=
  buffer.toList.map fun items => .data items isLast

inductive EncoderKind
  | ascii
  | utf8

/-- What `_add` tells the sink below. -/
def EncoderKind.events : EncoderKind → Option (List ℕ) → Bool → List Event
  | .ascii, buffer, isLast => passOn buffer false ++ if isLast then [.close] else []
  | .utf8, buffer, isLast => passOn buffer isLast

/-- `_AsciiBase64EncoderSink` and `_Utf8Base64EncoderSink` on all slices. -/
def encoderSink (kind : EncoderKind) (alphabet : List ℕ) (ending : Ending) :
    List Slice → ℕ → Result (Except NotAByte (List Event))
  | [], state => do
      match ← encode alphabet ending.slice true state with
      | .error e => .ok (.error e)
      | .ok (buffer, _) => .ok (.ok (kind.events buffer true))
  | s :: slices, state => do
      match ← encode alphabet s false state with
      | .error e => .ok (.error e)
      | .ok (buffer, state) =>
        match ← encoderSink kind alphabet ending slices state with
        | .error e => .ok (.error e)
        | .ok events => .ok (.ok (kind.events buffer false ++ events))

/-- The slices that `_Base64DecoderSink` gets, with the state that they leave. -/
def decodeSlices : List Slice → ℤ → Result (Thrown (List Event × ℤ))
  | [], state => .ok (.ok ([], state))
  | s :: slices, state =>
    if s.first = s.last then decodeSlices slices state
    else do
      match ← decode s state with
      | .error e => .ok (.error e)
      | .ok (buffer, state) =>
        match ← decodeSlices slices state with
        | .error e => .ok (.error e)
        | .ok (events, state) => .ok (.ok (passOn buffer false ++ events, state))

/-- The end of the input: `close` of the decoder and of the sink below. -/
def closeBelow (input : List ℕ) (last : ℕ) : Thrown (List Event × ℤ) → Thrown (List Event)
  | .error e => .error e
  | .ok (events, state) => (close input last state).map fun _ => events ++ [.close]

/-- `_Base64DecoderSink` on all slices; an empty slice is dropped with its `isLast`. -/
def decoderSink (ending : Ending) (slices : List Slice) : Result (Thrown (List Event)) :=
  match ending with
  | .close => do
      let r ← decodeSlices slices 0
      .ok (closeBelow [] 0 r)
  | .last s => do
      let r ← decodeSlices (slices ++ [s]) 0
      .ok (if s.first = s.last then r.map Prod.fst else closeBelow s.input s.last r)

/-- The three sinks, the encoders with their alphabet. -/
inductive Sink
  | encoder (kind : EncoderKind) (urlSafe : Bool)
  | decoder

/-- The calls to the sink below, or `none` when an exception is thrown. -/
def Sink.run (ending : Ending) (slices : List Slice) : Sink → Result (Option (List Event))
  | .encoder kind urlSafe => do
      let r ← encoderSink kind (alphabetOf urlSafe) ending slices 0
      .ok r.toOption
  | .decoder => do
      let r ← decoderSink ending slices
      .ok r.toOption

def Sink.convert (items : List ℕ) : Sink → Result (Option (List ℕ))
  | .encoder _ urlSafe =>
    if items.isEmpty then .ok (some [])
    else do
      let r ← encode (alphabetOf urlSafe) (Slice.whole items) true 0
      .ok (r.toOption.map fun (buffer, _) => buffer.getD [])
  | .decoder =>
    if items.isEmpty then .ok (some [])
    else do
      let r ← decodeChunks items items.length [Slice.whole items] 0
      .ok (r.toOption.map contents)

def allItems (ending : Ending) (slices : List Slice) : List ℕ :=
  slices.flatMap Slice.items ++ ending.slice.items

/-- The sink below gets the items and is told once of the end, last of all. -/
def Finishes (events : List Event) (items : List ℕ) : Prop :=
  ∃ before final, events = before ++ [final] ∧ (∀ e ∈ before, e.isEnd = false) ∧
    final.isEnd = true ∧ events.flatMap Event.items = items

/-- The run does what the conversion of the whole does, an exception included. -/
def Agree (run : Result (Option (List Event))) (whole : Result (Option (List ℕ))) : Prop :=
  (run = .ok none ∧ whole = .ok none) ∨
    ∃ events items, run = .ok (some events) ∧ whole = .ok (some items) ∧ Finishes events items

/-- Nothing is left for a last buffer of bytes, or an empty slice ends characters that are not
refused. -/
def Sink.LosesEnd (ending : Ending) (slices : List Slice) : Sink → Prop
  | .encoder .ascii _ => False
  | .encoder .utf8 _ =>
    ending.slice.items = [] ∧ (slices.flatMap Slice.items).length % 3 = 0
  | .decoder => ∃ s, ending = .last s ∧ s.items = [] ∧
      ∃ r, feed step (slices.flatMap Slice.items) (.sextets []) = .ok r

variable {alphabet pending : List ℕ}

lemma whole_items (items : List ℕ) : (Slice.whole items).items = items := by
  simp [Slice.whole, Slice.items]

lemma encode_eq_nil_iff (f : ℕ → ℕ) (padding : ℕ) (bytes : List ℕ) :
    Base64Format.encode f padding bytes = [] ↔ bytes = [] := by
  match bytes with
  | [] => simp [Base64Format.encode]
  | [a] => simp [Base64Format.encode]
  | [a, b] => simp [Base64Format.encode]
  | a :: b :: c :: rest => simp [Base64Format.encode, sextets]

lemma events_false (kind : EncoderKind) (buffer : Option (List ℕ)) :
    kind.events buffer false = passOn buffer false := by
  cases kind <;> simp [EncoderKind.events]

lemma passOn_items (buffer : Option (List ℕ)) (isLast : Bool) :
    (passOn buffer isLast).flatMap Event.items = buffer.getD [] := by
  cases buffer <;> simp [passOn, Event.items]

lemma passOn_isEnd {buffer : Option (List ℕ)} : ∀ e ∈ passOn buffer false, e.isEnd = false := by
  cases buffer <;> simp [passOn, Event.isEnd]

/-- Buffers are handed on until the last one, which is null when there is nothing left. -/
lemma encoderSink_spec (h : IsAlphabet alphabet) (kind : EncoderKind) (ending : Ending)
    (slices : List Slice) (hpend : pending.length < 3) (hbytes : ∀ b ∈ pending, b < 256)
    (hitems : ∀ b ∈ allItems ending slices, b < 256) :
    ∃ before buffer, encoderSink kind alphabet ending slices (stateOf pending) =
        .ok (.ok (before ++ kind.events buffer true)) ∧ (∀ e ∈ before, e.isEnd = false) ∧
      before.flatMap Event.items ++ buffer.getD [] =
        Base64Format.encode (character alphabet) paddingChar
          (pending ++ allItems ending slices) ∧
      (buffer = none ↔ ending.slice.items = [] ∧
        (pending ++ slices.flatMap Slice.items).length % 3 = 0) := by
  induction slices generalizing pending with
  | nil =>
    obtain ⟨buffer, hbuffer, hchars, hsome⟩ := encode_spec h ending.slice true hpend hbytes
      (fun b hb => hitems b (by simpa [allItems] using hb))
    rw [if_pos rfl, ← encode_eq_fullGroups] at hchars
    refine ⟨[], buffer, ?_, by simp, by simpa [allItems] using hchars, ?_⟩
    · rw [encoderSink, hbuffer, ok_bind, nil_append]
    · have hemp : buffer = none ↔ pending ++ ending.slice.items = [] := by
        rw [← encode_eq_nil_iff (character alphabet) paddingChar, ← hchars]
        cases buffer with
        | none => simp
        | some items => simpa using hsome
      rw [hemp, append_eq_nil_iff, flatMap_nil, append_nil,
        Nat.mod_eq_of_lt hpend, length_eq_zero_iff, and_comm]
  | cons s slices ih =>
    have hrest : allItems ending (s :: slices) = s.items ++ allItems ending slices := by
      simp [allItems]
    rw [hrest] at hitems
    obtain ⟨buffer, hbuffer, hchars, -⟩ := encode_spec h s false hpend hbytes
      (fun b hb => hitems b (mem_append_left _ hb))
    have hleft : ∀ b ∈ leftOver (pending ++ s.items), b < 256 := by
      intro b hb
      rcases mem_append.mp (mem_of_mem_leftOver hb) with hb | hb
      · exact hbytes b hb
      · exact hitems b (mem_append_left _ hb)
    obtain ⟨before, last, hrun, hpre, hall, hnone⟩ := ih (leftOver_length_lt _) hleft
      (fun b hb => hitems b (mem_append_right _ hb))
    rw [if_neg Bool.false_ne_true, append_nil] at hchars
    refine ⟨passOn buffer false ++ before, last, ?_, ?_, ?_, ?_⟩
    · rw [encoderSink, hbuffer, ok_bind]
      simp only [Bool.false_eq_true, if_false]
      rw [hrun, ok_bind, events_false, append_assoc]
    · exact forall_mem_append.mpr ⟨passOn_isEnd, hpre⟩
    · rw [flatMap_append, passOn_items, append_assoc, hall, hchars, ← encode_append, hrest,
        append_assoc]
    · rw [hnone, length_append, leftOver_length, Nat.mod_add_mod, ← length_append, append_assoc,
        flatMap_cons]

lemma encoder_convert (kind : EncoderKind) (urlSafe : Bool) {items : List ℕ}
    (hitems : ∀ b ∈ items, b < 256) :
    (Sink.encoder kind urlSafe).convert items =
      .ok (some (Base64Format.encode (character (alphabetOf urlSafe)) paddingChar items)) := by
  rw [Sink.convert]
  by_cases hnil : items = []
  · subst hnil
    rfl
  · obtain ⟨buffer, hbuffer, hchars, -⟩ := encode_spec (isAlphabet_alphabetOf urlSafe)
      (Slice.whole items) true (by decide : ([] : List ℕ).length < 3) (by simp)
      (by rwa [whole_items])
    rw [if_pos rfl, ← encode_eq_fullGroups, whole_items] at hchars
    rw [if_neg (by simpa using hnil), show (0 : ℕ) = stateOf [] from rfl, hbuffer, ok_bind,
      ← nil_append items, ← hchars]
    rfl

lemma not_finishes {events : List Event} (h : ∀ e ∈ events, e.isEnd = false) (items : List ℕ) :
    ¬Finishes events items := by
  rintro ⟨before, final, rfl, -, hfinal, -⟩
  have hnot := h final (mem_append_right _ mem_cons_self)
  rw [hfinal] at hnot
  cases hnot

lemma agree_ok_iff (events : List Event) (items : List ℕ) :
    Agree (.ok (some events)) (.ok (some items)) ↔ Finishes events items := by
  simp [Agree]

lemma encoder_agree_iff (kind : EncoderKind) (urlSafe : Bool) (ending : Ending)
    (slices : List Slice) (hitems : ∀ b ∈ allItems ending slices, b < 256) :
    Agree ((Sink.encoder kind urlSafe).run ending slices)
        ((Sink.encoder kind urlSafe).convert (allItems ending slices)) ↔
      ¬(Sink.encoder kind urlSafe).LosesEnd ending slices := by
  obtain ⟨before, buffer, hrun, hpre, hall, hnone⟩ := encoderSink_spec
    (isAlphabet_alphabetOf urlSafe) kind ending slices (by decide : ([] : List ℕ).length < 3)
    (by simp) hitems
  rw [nil_append] at hall hnone
  rw [encoder_convert kind urlSafe hitems, Sink.run, show (0 : ℕ) = stateOf [] from rfl, hrun,
    ok_bind, ← hall]
  refine (agree_ok_iff _ _).trans ?_
  cases kind with
  | ascii =>
    refine ⟨fun _ h => h, fun _ => ⟨before ++ passOn buffer false, .close, ?_, ?_, rfl, ?_⟩⟩
    · simp [EncoderKind.events]
    · exact forall_mem_append.mpr ⟨hpre, passOn_isEnd⟩
    · simp [EncoderKind.events, passOn_items, Event.items]
  | utf8 =>
    rw [Sink.LosesEnd, ← hnone]
    cases buffer with
    | none =>
      refine ⟨fun h => absurd h (not_finishes ?_ _), fun h => absurd rfl h⟩
      simpa [EncoderKind.events, passOn] using hpre
    | some items =>
      refine ⟨fun _ => Option.some_ne_none _,
        fun _ => ⟨before, .data items true, rfl, hpre, rfl, ?_⟩⟩
      rw [flatMap_append]
      simp [EncoderKind.events, passOn_items]

variable {m : Mode} {state : ℤ}

lemma items_eq_nil_iff (s : Slice) : s.items = [] ↔ s.first = s.last := by
  have hle := s.first_le
  rw [← length_eq_zero_iff, s.items_length]
  omega

lemma decodeSlices_spec (slices : List Slice) (h : Stands state m) :
    (∃ out m' events state', feed step (slices.flatMap Slice.items) m = .ok (out, m') ∧
      Stands state' m' ∧ decodeSlices slices state = .ok (.ok (events, state')) ∧
      (∀ e ∈ events, e.isEnd = false) ∧ events.flatMap Event.items = out) ∨
    feed step (slices.flatMap Slice.items) m = .error () ∧
      ∃ e, decodeSlices slices state = .ok (.error e) := by
  induction slices generalizing state m with
  | nil => exact .inl ⟨[], m, [], state, rfl, h, rfl, by simp, rfl⟩
  | cons s slices ih =>
    rw [decodeSlices, flatMap_cons]
    by_cases hemp : s.first = s.last
    · rw [if_pos hemp, (items_eq_nil_iff s).mpr hemp, nil_append]
      exact ih h
    rw [if_neg hemp]
    rcases decode_spec s h with ⟨out, m1, buffer, state1, hfeed, hstands, hdec, hout⟩ |
      ⟨hfeed, e, hdec⟩
    · rw [hdec, ok_bind, feed_append_ok hfeed]
      dsimp only
      rcases ih hstands with ⟨out', m', events, state', hrest, hstands', hslices, hend, hevents⟩ |
        ⟨hrest, e, hslices⟩
      · rw [hrest, after_ok, hslices, ok_bind]
        refine .inl ⟨out ++ out', m', passOn buffer false ++ events, state', rfl, hstands', rfl,
          forall_mem_append.mpr ⟨passOn_isEnd, hend⟩, ?_⟩
        rw [flatMap_append, passOn_items, hout, hevents]
      · rw [hrest, hslices, ok_bind]
        exact .inr ⟨rfl, e, rfl⟩
    · rw [hdec, ok_bind, feed_append_error hfeed]
      exact .inr ⟨rfl, e, rfl⟩

lemma stands_start : Stands 0 (.sextets []) := ⟨by decide, by simp, rfl⟩

lemma decoder_convert (items : List ℕ) :
    (∃ out m, feed step items (.sextets []) = .ok (out, m) ∧ m.IsFinal ∧
      Sink.decoder.convert items = .ok (some out)) ∨
    (∀ out m, feed step items (.sextets []) = .ok (out, m) → ¬m.IsFinal) ∧
      Sink.decoder.convert items = .ok none := by
  rw [Sink.convert]
  by_cases hnil : items = []
  · subst hnil
    exact .inl ⟨[], .sextets [], rfl, rfl, rfl⟩
  rw [if_neg (by simpa using hnil)]
  have hspec := decodeChunks_spec items items.length [Slice.whole items] stands_start
  rw [flatMap_singleton, whole_items] at hspec
  rcases hspec with ⟨out, m, buffers, hfeed, hfinal, hchunks, hout⟩ | ⟨hnot, e, hchunks⟩
  · refine .inl ⟨out, m, hfeed, hfinal, ?_⟩
    rw [hchunks, ok_bind, ← hout]
    rfl
  · refine .inr ⟨hnot, ?_⟩
    rw [hchunks, ok_bind]
    rfl

lemma decoder_convert_of_error {items : List ℕ}
    (h : feed step items (.sextets []) = .error ()) : Sink.decoder.convert items = .ok none := by
  rcases decoder_convert items with ⟨_, _, hfeed, -⟩ | ⟨-, hconv⟩
  · rw [h] at hfeed
    cases hfeed
  · exact hconv

lemma closeBelow_agree (input : List ℕ) (last : ℕ) (slices : List Slice) :
    ∃ r, decodeSlices slices 0 = .ok r ∧ Agree (.ok (closeBelow input last r).toOption)
      (Sink.decoder.convert (slices.flatMap Slice.items)) := by
  rcases decodeSlices_spec slices stands_start with
    ⟨out, m, events, state, hfeed, hstands, hslices, hend, hout⟩ | ⟨hfeed, e, hslices⟩
  · refine ⟨_, hslices, ?_⟩
    rw [closeBelow]
    rcases decoder_convert (slices.flatMap Slice.items) with
      ⟨out', m', hfeed', hfinal, hconv⟩ | ⟨hnot, hconv⟩
    · rw [hfeed] at hfeed'
      cases hfeed'
      rcases close_spec input last hstands with ⟨hclose, -⟩ | ⟨-, hfinal'⟩
      · rw [hconv, hclose]
        refine .inr ⟨events ++ [.close], out, rfl, rfl, events, .close, rfl, hend, rfl, ?_⟩
        simp [Event.items, hout]
      · exact absurd hfinal hfinal'
    · rcases close_spec input last hstands with ⟨-, hfinal⟩ | ⟨⟨e, hclose⟩, -⟩
      · exact absurd hfinal (hnot _ _ hfeed)
      · rw [hconv, hclose]
        exact .inl ⟨rfl, rfl⟩
  · exact ⟨_, hslices, .inl ⟨rfl, decoder_convert_of_error hfeed⟩⟩

lemma decoder_agree_iff (ending : Ending) (slices : List Slice) :
    Agree (Sink.decoder.run ending slices) (Sink.decoder.convert (allItems ending slices)) ↔
      ¬Sink.decoder.LosesEnd ending slices := by
  rw [Sink.run, decoderSink.eq_def, Sink.LosesEnd]
  cases ending with
  | close =>
    obtain ⟨r, hslices, hagree⟩ := closeBelow_agree [] 0 slices
    dsimp only
    rw [show allItems .close slices = slices.flatMap Slice.items by
      simp [allItems, Ending.slice, whole_items], hslices, ok_bind, ok_bind]
    exact iff_of_true hagree (by simp)
  | last s =>
    have hitems : allItems (.last s) slices = (slices ++ [s]).flatMap Slice.items := by
      simp [allItems, Ending.slice]
    dsimp only
    rw [hitems]
    by_cases hemp : s.first = s.last
    · have hnil := (items_eq_nil_iff s).mpr hemp
      have hall : (slices ++ [s]).flatMap Slice.items = slices.flatMap Slice.items := by
        simp [hnil]
      rcases decodeSlices_spec (slices ++ [s]) stands_start with
        ⟨out, m, events, state, hfeed, -, hslices, hend, -⟩ | ⟨hfeed, e, hslices⟩
      · rw [hslices, ok_bind, ok_bind, if_pos hemp]
        refine iff_of_false ?_ (not_not_intro ⟨s, rfl, hnil, _, hall ▸ hfeed⟩)
        rintro (⟨hthrown, -⟩ | ⟨_, items, hevents, -, hfinishes⟩)
        · cases hthrown
        · cases hevents
          exact not_finishes hend items hfinishes
      · rw [hslices, ok_bind, ok_bind, if_pos hemp]
        refine iff_of_true (.inl ⟨rfl, decoder_convert_of_error hfeed⟩) ?_
        rintro ⟨_, -, -, r, hr⟩
        rw [hall, hr] at hfeed
        cases hfeed
    · obtain ⟨r, hslices, hagree⟩ := closeBelow_agree s.input s.last (slices ++ [s])
      rw [hslices, ok_bind, ok_bind, if_neg hemp]
      refine iff_of_true hagree ?_
      rintro ⟨_, hs, hnil, -⟩
      cases hs
      exact hemp ((items_eq_nil_iff s).mp hnil)

/-- A sink delivers the conversion of the whole and ends the sink below once, or throws as the
conversion does, unless the end of the input is lost. -/
theorem sink_agree_iff (sink : Sink) (ending : Ending) (slices : List Slice)
    (hbytes : sink ≠ .decoder → ∀ b ∈ allItems ending slices, b < 256) :
    Agree (sink.run ending slices) (sink.convert (allItems ending slices)) ↔
      ¬sink.LosesEnd ending slices := by
  cases sink with
  | encoder kind urlSafe => exact encoder_agree_iff kind urlSafe ending slices (hbytes (by simp))
  | decoder => exact decoder_agree_iff ending slices

/-- Four bytes and `close()`. -/
theorem sink_agree_four_bytes :
    Agree ((Sink.encoder .utf8 false).run .close [Slice.whole [1, 2, 3, 4]])
      ((Sink.encoder .utf8 false).convert (allItems .close [Slice.whole [1, 2, 3, 4]])) :=
  (sink_agree_iff (.encoder .utf8 false) .close [Slice.whole [1, 2, 3, 4]]
    (fun _ => by decide)).mpr (by rw [Sink.LosesEnd]; decide)

/-- The sink below is not told of the end after three bytes and `close()`, nor after an empty last
slice. -/
theorem sink_loses_end :
    ¬Agree ((Sink.encoder .utf8 false).run .close [Slice.whole [1, 2, 3]])
        ((Sink.encoder .utf8 false).convert [1, 2, 3]) ∧
      ¬Agree (Sink.decoder.run (.last (Slice.whole [])) []) (Sink.decoder.convert []) := by
  have hencoder : (Sink.encoder .utf8 false).run .close [Slice.whole [1, 2, 3]] =
      .ok (some [.data [0x41, 0x51, 0x49, 0x44] false]) := by decide +kernel
  have hconvert : (Sink.encoder .utf8 false).convert [1, 2, 3] =
      .ok (some [0x41, 0x51, 0x49, 0x44]) := by decide +kernel
  rw [hencoder, hconvert, agree_ok_iff]
  exact ⟨not_finishes (by simp [Event.isEnd]) _,
    (agree_ok_iff [] []).not.mpr (not_finishes (by simp) [])⟩

end DartSdk.Base64
