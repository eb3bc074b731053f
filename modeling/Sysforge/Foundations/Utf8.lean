import Sysforge.Foundations.Text

/-!
# UTF-8 with replacement

`data.decode("utf-8", "replace")` and `text.encode()`. The decoder reads a byte at a time: after a
lead byte it waits for the bytes that may follow (`Pending`), and what cannot be completed, up to the
first byte that does not fit, becomes one replacement character.

A character below U+0080 stands for its byte, and no others come of bytes that stand for more
(`mem_decode`), so that a decoded text can be cut at such a character: what is before and behind it
is the text of the bytes before and behind (`located`).
-/

namespace Sysforge.Utf8

/-- U+FFFD. -/
def replacement : Char := '\ufffd'

/-- The number of characters that `n` bytes of a sequence tell apart. -/
def span : ℕ → ℕ
  | 0 => 1
  | n + 1 => 64 * span n

/-- A sequence begun by a lead byte: the next byte is between `lo` and `hi`, `need` bytes come after
it, and what was read gives `acc`. What it can become is a character that is not ASCII. -/
structure Pending where
  lo : ℕ
  hi : ℕ
  need : ℕ
  acc : ℕ
  lo_ge : 0x80 ≤ lo
  least : 0x80 ≤ (64 * acc + (lo - 0x80)) * span need
  valid : (64 * acc + (hi - 0x80) + 1) * span need ≤ 0xd800 ∨
    0xe000 ≤ (64 * acc + (lo - 0x80)) * span need ∧
      (64 * acc + (hi - 0x80) + 1) * span need ≤ 0x110000

/-- What a lead byte begins. -/
def lead (b : ℕ) : Option Pending :=
  if h : 0xc2 ≤ b ∧ b ≤ 0xdf then
    some ⟨0x80, 0xbf, 0, b - 0xc0, by omega, by simp only [span]; omega, by simp only [span]; omega⟩
  else if h : b = 0xe0 then
    some ⟨0xa0, 0xbf, 1, 0, by omega, by simp only [span]; omega, by simp only [span]; omega⟩
  else if h : b = 0xed then
    some ⟨0x80, 0x9f, 1, 0xd, by omega, by simp only [span]; omega, by simp only [span]; omega⟩
  else if h : 0xe1 ≤ b ∧ b ≤ 0xef then
    some ⟨0x80, 0xbf, 1, b - 0xe0, by omega, by simp only [span]; omega, by simp only [span]; omega⟩
  else if h : b = 0xf0 then
    some ⟨0x90, 0xbf, 2, 0, by omega, by simp only [span]; omega, by simp only [span]; omega⟩
  else if h : 0xf1 ≤ b ∧ b ≤ 0xf3 then
    some ⟨0x80, 0xbf, 2, b - 0xf0, by omega, by simp only [span]; omega, by simp only [span]; omega⟩
  else if h : b = 0xf4 then
    some ⟨0x80, 0x8f, 2, 4, by omega, by simp only [span]; omega, by simp only [span]; omega⟩
  else none

/-- The sequence with one more byte. -/
def Pending.next (p : Pending) (n b : ℕ) (hn : p.need = n + 1) (hlo : p.lo ≤ b) (hhi : b ≤ p.hi) :
    Pending where
  lo := 0x80
  hi := 0xbf
  need := n
  acc := 64 * p.acc + (b - 0x80)
  lo_ge := le_rfl
  least := by
    have hleast := p.least
    have hge := p.lo_ge
    rw [hn, span, ← Nat.mul_assoc] at hleast
    exact hleast.trans (Nat.mul_le_mul_right _ (by omega))
  valid := by
    have hvalid := p.valid
    have hge := p.lo_ge
    rw [hn, span, ← Nat.mul_assoc, ← Nat.mul_assoc] at hvalid
    have hmin : (64 * p.acc + (p.lo - 0x80)) * 64 * span n ≤
        (64 * (64 * p.acc + (b - 0x80)) + (0x80 - 0x80)) * span n :=
      Nat.mul_le_mul_right _ (by omega)
    have hmax : (64 * (64 * p.acc + (b - 0x80)) + (0xbf - 0x80) + 1) * span n ≤
        (64 * p.acc + (p.hi - 0x80) + 1) * 64 * span n :=
      Nat.mul_le_mul_right _ (by omega)
    rcases hvalid with h | ⟨h, h'⟩
    · exact .inl (hmax.trans h)
    · exact .inr ⟨h.trans hmin, hmax.trans h'⟩

/-- A byte between sequences. -/
def start (b : ℕ) : Text × Option Pending :=
  if b < 0x80 then ([Char.ofNat b], none)
  else
    match lead b with
    | some p => ([], some p)
    | none => ([replacement], none)

/-- A byte behind what was read of a sequence. -/
def Pending.step (p : Pending) (b : ℕ) : Text × Option Pending :=
  if h : p.lo ≤ b ∧ b ≤ p.hi then
    match hn : p.need with
    | 0 => ([Char.ofNat (64 * p.acc + (b - 0x80))], none)
    | n + 1 => ([], some (p.next n b hn h.1 h.2))
  else (replacement :: (start b).1, (start b).2)

/-- A byte: the characters that it completes, and the sequence that it leaves open. -/
def step (p : Option Pending) (b : UInt8) : Text × Option Pending :=
  match p with
  | none => start b.toNat
  | some p => p.step b.toNat

/-- The text of the bytes behind an open sequence. -/
def decodeFrom : Option Pending → List UInt8 → Text
  | none, [] => []
  | some _, [] => [replacement]
  | p, b :: s => (step p b).1 ++ decodeFrom (step p b).2 s

/-- `data.decode("utf-8", "replace")`. -/
def decode (s : List UInt8) : Text := decodeFrom none s

/-- `text.encode()`. -/
def encode (t : Text) : List UInt8 := t.flatMap String.utf8EncodeChar

/-- A character that is not ASCII. -/
def Wide (c : Char) : Prop := 0x80 ≤ c.toNat

section Decode

variable {a r : Text} {b : UInt8} {c : Char} {p : Option Pending} {s u : List UInt8}

theorem wide_replacement : Wide replacement := by
  rw [Wide]
  decide

theorem decodeFrom_cons : decodeFrom p (b :: s) = (step p b).1 ++ decodeFrom (step p b).2 s := by
  cases p <;> rfl

/-- What completes a sequence is not ASCII. -/
theorem Pending.wide_ofNat (p : Pending) {b : ℕ} (hn : p.need = 0) (hlo : p.lo ≤ b) (hhi : b ≤ p.hi) :
    Wide (Char.ofNat (64 * p.acc + (b - 0x80))) := by
  have hleast := p.least
  have hvalid := p.valid
  have hge := p.lo_ge
  rw [hn, span, Nat.mul_one] at hleast hvalid
  have hchar : (64 * p.acc + (b - 0x80)).isValidChar := by
    rw [Nat.isValidChar]
    omega
  rw [Wide, Char.ofNat, dif_pos hchar]
  change 0x80 ≤ 64 * p.acc + (b - 0x80)
  omega

theorem start_spec (b : ℕ) : (b < 0x80 ∧ start b = ([Char.ofNat b], none)) ∨
    (∃ p, start b = ([], some p)) ∨ start b = ([replacement], none) := by
  rw [start]
  split
  · rename_i h
    exact .inl ⟨h, rfl⟩
  · split
    · exact .inr (.inl ⟨_, rfl⟩)
    · exact .inr (.inr rfl)

theorem Pending.step_spec (p : Pending) (b : ℕ) :
    (∃ q, p.step b = ([], some q)) ∨ (∃ c, Wide c ∧ p.step b = ([c], none)) ∨
      p.step b = (replacement :: (start b).1, (start b).2) := by
  rw [Pending.step]
  split
  · rename_i h
    split
    · rename_i hn
      exact .inr (.inl ⟨_, p.wide_ofNat hn h.1 h.2, rfl⟩)
    · exact .inl ⟨_, rfl⟩
  · exact .inr (.inr rfl)

/-- An ASCII character of a decoded text is a byte, with the texts before and behind it. -/
def Located (p : Option Pending) (s : List UInt8) (a : Text) (c : Char) (r : Text) : Prop :=
  ∃ u b v, s = u ++ b :: v ∧ b.toNat < 0x80 ∧ c = Char.ofNat b.toNat ∧ decodeFrom p u = a ∧ decode v = r

theorem Located.cons {q : Option Pending} {x a' : Text} (h : Located q s a' c r)
    (hstep : step p b = (x, q)) (ha : a = x ++ a') : Located p (b :: s) a c r := by
  obtain ⟨u, k, v, rfl, hk, hc, hu, hv⟩ := h
  refine ⟨b :: u, k, v, rfl, hk, hc, ?_, hv⟩
  rw [decodeFrom_cons, hstep, hu, ha]

theorem located_none (hc : ¬Wide c) (h : decode (b :: s) = a ++ c :: r)
    (ih : ∀ {q a}, decodeFrom q s = a ++ c :: r → Located q s a c r) : Located none (b :: s) a c r := by
  rw [decode, decodeFrom_cons] at h
  rcases start_spec b.toNat with ⟨hb, hstart⟩ | ⟨q, hstart⟩ | hstart
  · rw [step, hstart] at h
    cases a with
    | nil =>
      obtain ⟨rfl, hr⟩ := List.cons.inj h
      exact ⟨[], b, s, rfl, hb, rfl, rfl, hr⟩
    | cons e a =>
      obtain ⟨rfl, hrest⟩ := List.cons.inj h
      exact (ih hrest).cons hstart rfl
  · rw [step, hstart] at h
    exact (ih h).cons hstart rfl
  · rw [step, hstart] at h
    cases a with
    | nil =>
      obtain ⟨rfl, -⟩ := List.cons.inj h
      exact absurd wide_replacement hc
    | cons e a =>
      obtain ⟨rfl, hrest⟩ := List.cons.inj h
      exact (ih hrest).cons hstart rfl

theorem located (h : decodeFrom p s = a ++ c :: r) (hc : ¬Wide c) : Located p s a c r := by
  induction s generalizing p a with
  | nil =>
    cases p with
    | none => exact absurd h.symm (List.append_ne_nil_of_right_ne_nil a (List.cons_ne_nil c r))
    | some p =>
      rcases List.singleton_eq_append_iff.mp h with ⟨rfl, hcr⟩ | ⟨-, hcr⟩
      · obtain ⟨rfl, -⟩ := List.cons.inj hcr
        exact absurd wide_replacement hc
      · cases hcr
  | cons b s ih =>
    cases p with
    | none => exact located_none hc h ih
    | some p =>
      rw [decodeFrom_cons] at h
      rcases p.step_spec b.toNat with ⟨q, hstep⟩ | ⟨e, he, hstep⟩ | hstep
      · rw [step, hstep] at h
        exact (ih h).cons hstep rfl
      · rw [step, hstep] at h
        cases a with
        | nil =>
          obtain ⟨rfl, -⟩ := List.cons.inj h
          exact absurd he hc
        | cons e' a =>
          obtain ⟨rfl, hrest⟩ := List.cons.inj h
          exact (ih hrest).cons hstep rfl
      · rw [step, hstep] at h
        cases a with
        | nil =>
          obtain ⟨rfl, -⟩ := List.cons.inj h
          exact absurd wide_replacement hc
        | cons e a =>
          obtain ⟨rfl, hrest⟩ := List.cons.inj h
          -- the sequence ends without the byte, which is read again between sequences
          obtain ⟨u, k, v, hs, hk, hck, hu, hv⟩ := located_none (b := b) hc hrest ih
          cases u with
          | nil =>
            subst hu
            exact ⟨[], k, v, hs, hk, hck, rfl, hv⟩
          | cons b' u =>
            obtain ⟨rfl, -⟩ := List.cons.inj hs
            refine ⟨b :: u, k, v, hs, hk, hck, ?_, hv⟩
            rw [decodeFrom_cons, step, hstep, ← hu]
            rfl

/-- A decoded text has the ASCII characters of its bytes, and others. -/
theorem mem_decode (h : c ∈ decode s) : Wide c ∨ ∃ b ∈ s, c = Char.ofNat b.toNat := by
  by_cases hc : Wide c
  · exact .inl hc
  obtain ⟨a, r, hs⟩ := List.append_of_mem h
  obtain ⟨u, b, v, rfl, -, hb, -⟩ := located hs hc
  exact .inr ⟨b, List.mem_append_right u List.mem_cons_self, hb⟩

end Decode

/-! ## Encoding -/

/-- The bytes of a character: its own where it is ASCII, and none of ASCII otherwise. -/
theorem mem_encodeChar {c : Char} {b : UInt8} (h : b ∈ String.utf8EncodeChar c) :
    b.toNat = c.toNat ∨ 0x80 ≤ b.toNat := by
  have hlead : ∀ {n m k : ℕ}, m + k ≤ 256 → 0x80 ≤ k → 0 < m → 0x80 ≤ (UInt8.ofNat (n % m + k)).toNat := by
    intro n m k hmk hk hm
    have hlt := Nat.mod_lt n hm
    rw [UInt8.toNat_ofNat', Nat.mod_eq_of_lt (by omega)]
    omega
  rw [String.utf8EncodeChar] at h
  split_ifs at h with h₁ h₂ h₃
  · rw [List.mem_singleton.mp h, UInt8.toNat_ofNat', Nat.mod_eq_of_lt (by omega)]
    exact .inl rfl
  · refine .inr ?_
    simp only [List.mem_cons, List.not_mem_nil, or_false] at h
    rcases h with rfl | rfl <;> exact hlead (by decide) (by decide) (by decide)
  · refine .inr ?_
    simp only [List.mem_cons, List.not_mem_nil, or_false] at h
    rcases h with rfl | rfl | rfl <;> exact hlead (by decide) (by decide) (by decide)
  · refine .inr ?_
    simp only [List.mem_cons, List.not_mem_nil, or_false] at h
    rcases h with rfl | rfl | rfl | rfl <;> exact hlead (by decide) (by decide) (by decide)

/-- A byte below 0x80 of an encoded text is one of its characters. -/
theorem mem_encode {t : Text} {b : UInt8} (h : b ∈ encode t) (hb : b.toNat < 0x80) :
    ∃ c ∈ t, c.toNat = b.toNat := by
  obtain ⟨c, hc, hbc⟩ := List.mem_flatMap.mp h
  rcases mem_encodeChar hbc with heq | hge
  · exact ⟨c, hc, heq.symm⟩
  · omega

end Sysforge.Utf8
