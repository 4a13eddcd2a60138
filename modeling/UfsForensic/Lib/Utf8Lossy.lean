import Mathlib.Tactic.SplitIfs
import Mathlib.Tactic.Common

/-!
# Lossy UTF-8 decoding

`String::from_utf8_lossy`: well-formed sequences are decoded, and each maximal prefix of an
ill-formed one is replaced by one U+FFFD. Decoding undoes encoding, and where no U+FFFD comes out the
bytes are the encoding of what does.
-/

namespace UfsForensic.Utf8

def REPLACEMENT : Char := Char.ofNat 0xFFFD

def isCont (b : UInt8) : Bool := 0x80 ≤ b && b ≤ 0xBF

/-- The second bytes a three-byte lead admits: no overlong forms, no surrogates. -/
def second3 (b0 b1 : UInt8) : Bool :=
  if b0 = 0xE0 then 0xA0 ≤ b1 && b1 ≤ 0xBF
  else if b0 = 0xED then 0x80 ≤ b1 && b1 ≤ 0x9F
  else isCont b1

/-- The second bytes a four-byte lead admits: no overlong forms, nothing past U+10FFFF. -/
def second4 (b0 b1 : UInt8) : Bool :=
  if b0 = 0xF0 then 0x90 ≤ b1 && b1 ≤ 0xBF
  else if b0 = 0xF4 then 0x80 ≤ b1 && b1 ≤ 0x8F
  else isCont b1

def low6 (b : UInt8) : ℕ := b.toNat % 64

/-- The character that starts with `b0`, and the bytes after it. -/
def decodeOne (b0 : UInt8) (rest : List UInt8) : Char × List UInt8 :=
  if b0 < 0x80 then (Char.ofNat b0.toNat, rest)
  else if 0xC2 ≤ b0 ∧ b0 ≤ 0xDF then
    match rest with
    | b1 :: r1 =>
      if isCont b1 then (Char.ofNat (b0.toNat % 32 * 64 + low6 b1), r1) else (REPLACEMENT, rest)
    | [] => (REPLACEMENT, [])
  else if 0xE0 ≤ b0 ∧ b0 ≤ 0xEF then
    match rest with
    | b1 :: b2 :: r2 =>
      if !second3 b0 b1 then (REPLACEMENT, rest)
      else if !isCont b2 then (REPLACEMENT, b2 :: r2)
      else (Char.ofNat (b0.toNat % 16 * 4096 + low6 b1 * 64 + low6 b2), r2)
    | [b1] => if second3 b0 b1 then (REPLACEMENT, []) else (REPLACEMENT, rest)
    | [] => (REPLACEMENT, [])
  else if 0xF0 ≤ b0 ∧ b0 ≤ 0xF4 then
    match rest with
    | b1 :: b2 :: b3 :: r3 =>
      if !second4 b0 b1 then (REPLACEMENT, rest)
      else if !isCont b2 then (REPLACEMENT, b2 :: b3 :: r3)
      else if !isCont b3 then (REPLACEMENT, b3 :: r3)
      else
        (Char.ofNat (b0.toNat % 8 * 262144 + low6 b1 * 4096 + low6 b2 * 64 + low6 b3), r3)
    | [b1, b2] =>
      if !second4 b0 b1 then (REPLACEMENT, rest)
      else if !isCont b2 then (REPLACEMENT, [b2])
      else (REPLACEMENT, [])
    | [b1] => if second4 b0 b1 then (REPLACEMENT, []) else (REPLACEMENT, rest)
    | [] => (REPLACEMENT, [])
  else (REPLACEMENT, rest)

theorem decodeOne_length (b0 : UInt8) (rest : List UInt8) :
    (decodeOne b0 rest).2.length ≤ rest.length := by
  unfold decodeOne
  repeat' split
  all_goals simp only [List.length_cons, List.length_nil]
  all_goals omega

/-- `String::from_utf8_lossy` -/
def decodeLossy : List UInt8 → List Char
  | [] => []
  | b0 :: rest => (decodeOne b0 rest).1 :: decodeLossy (decodeOne b0 rest).2
termination_by bytes => bytes.length
decreasing_by
  have := decodeOne_length b0 rest
  simp only [List.length_cons]
  omega

/-- The well-formed sequences, and the code point each stands for. -/
inductive Sequence : List UInt8 → ℕ → Prop
  | one {b0 : UInt8} (h0 : b0.toNat < 0x80) : Sequence [b0] b0.toNat
  | two {b0 b1 : UInt8} (h0 : 0xC2 ≤ b0.toNat ∧ b0.toNat ≤ 0xDF) (h1 : isCont b1 = true) :
      Sequence [b0, b1] (b0.toNat % 32 * 64 + low6 b1)
  | three {b0 b1 b2 : UInt8} (h0 : 0xE0 ≤ b0.toNat ∧ b0.toNat ≤ 0xEF) (h1 : second3 b0 b1 = true)
      (h2 : isCont b2 = true) :
      Sequence [b0, b1, b2] (b0.toNat % 16 * 4096 + low6 b1 * 64 + low6 b2)
  | four {b0 b1 b2 b3 : UInt8} (h0 : 0xF0 ≤ b0.toNat ∧ b0.toNat ≤ 0xF4) (h1 : second4 b0 b1 = true)
      (h2 : isCont b2 = true) (h3 : isCont b3 = true) :
      Sequence [b0, b1, b2, b3]
        (b0.toNat % 8 * 262144 + low6 b1 * 4096 + low6 b2 * 64 + low6 b3)

theorem isCont_iff {b : UInt8} : isCont b = true ↔ 0x80 ≤ b.toNat ∧ b.toNat ≤ 0xBF := by
  simp [isCont, UInt8.le_iff_toNat_le]

theorem second3_iff {b0 b1 : UInt8} : second3 b0 b1 = true ↔
    (b0.toNat = 0xE0 ∧ 0xA0 ≤ b1.toNat ∧ b1.toNat ≤ 0xBF) ∨
      (b0.toNat = 0xED ∧ 0x80 ≤ b1.toNat ∧ b1.toNat ≤ 0x9F) ∨
        (b0.toNat ≠ 0xE0 ∧ b0.toNat ≠ 0xED ∧ 0x80 ≤ b1.toNat ∧ b1.toNat ≤ 0xBF) := by
  unfold second3
  split_ifs with h h' <;> simp_all [isCont, UInt8.le_iff_toNat_le, ← UInt8.toNat_inj]

theorem second4_iff {b0 b1 : UInt8} : second4 b0 b1 = true ↔
    (b0.toNat = 0xF0 ∧ 0x90 ≤ b1.toNat ∧ b1.toNat ≤ 0xBF) ∨
      (b0.toNat = 0xF4 ∧ 0x80 ≤ b1.toNat ∧ b1.toNat ≤ 0x8F) ∨
        (b0.toNat ≠ 0xF0 ∧ b0.toNat ≠ 0xF4 ∧ 0x80 ≤ b1.toNat ∧ b1.toNat ≤ 0xBF) := by
  unfold second4
  split_ifs with h h' <;> simp_all [isCont, UInt8.le_iff_toNat_le, ← UInt8.toNat_inj]

theorem toNat_ofNat_lt {n : ℕ} (h : n < 256) : (UInt8.ofNat n).toNat = n := by
  simp [Nat.mod_eq_of_lt h]

theorem toNat_cont (n : ℕ) : (UInt8.ofNat (n % 0x40 + 0x80)).toNat = n % 0x40 + 0x80 :=
  toNat_ofNat_lt (by omega)

theorem isCont_cont (n : ℕ) : isCont (UInt8.ofNat (n % 0x40 + 0x80)) = true := by
  rw [isCont_iff, toNat_cont]
  omega

theorem low6_cont (n : ℕ) : low6 (UInt8.ofNat (n % 0x40 + 0x80)) = n % 0x40 := by
  rw [low6, toNat_cont]
  omega

theorem sequence_encode (c : Char) : Sequence (String.utf8EncodeChar c) c.toNat := by
  have hvalid : c.val.toNat.isValidChar := c.valid
  rw [show c.toNat = c.val.toNat from rfl]
  unfold Nat.isValidChar at hvalid
  unfold String.utf8EncodeChar
  dsimp only
  generalize c.val.toNat = v at *
  split_ifs with h1 h2 h3
  · have h0 : (UInt8.ofNat v).toNat = v := toNat_ofNat_lt (by omega)
    have hlead : (UInt8.ofNat v).toNat < 0x80 := by
      rw [h0]
      exact Nat.lt_succ_of_le h1
    have h := Sequence.one hlead
    rwa [h0] at h
  · have h0 : (UInt8.ofNat (v / 64 % 0x20 + 0xc0)).toNat = v / 64 % 0x20 + 0xc0 :=
      toNat_ofNat_lt (by omega)
    have hlead : 0xC2 ≤ (UInt8.ofNat (v / 64 % 0x20 + 0xc0)).toNat ∧
        (UInt8.ofNat (v / 64 % 0x20 + 0xc0)).toNat ≤ 0xDF := by
      rw [h0]
      omega
    have h := Sequence.two hlead (isCont_cont v)
    rwa [h0, low6_cont, show (v / 64 % 0x20 + 0xc0) % 32 * 64 + v % 0x40 = v by omega] at h
  · have h0 : (UInt8.ofNat (v / 4096 % 0x10 + 0xe0)).toNat = v / 4096 % 0x10 + 0xe0 :=
      toNat_ofNat_lt (by omega)
    have hlead : 0xE0 ≤ (UInt8.ofNat (v / 4096 % 0x10 + 0xe0)).toNat ∧
        (UInt8.ofNat (v / 4096 % 0x10 + 0xe0)).toNat ≤ 0xEF := by
      rw [h0]
      omega
    have hsecond : second3 (UInt8.ofNat (v / 4096 % 0x10 + 0xe0))
        (UInt8.ofNat (v / 64 % 0x40 + 0x80)) = true := by
      rw [second3_iff, toNat_cont, h0]
      omega
    have h := Sequence.three hlead hsecond (isCont_cont v)
    rwa [h0, low6_cont, low6_cont, show (v / 4096 % 0x10 + 0xe0) % 16 * 4096 +
      v / 64 % 0x40 * 64 + v % 0x40 = v by omega] at h
  · have h0 : (UInt8.ofNat (v / 262144 % 0x08 + 0xf0)).toNat = v / 262144 % 0x08 + 0xf0 :=
      toNat_ofNat_lt (by omega)
    have hlead : 0xF0 ≤ (UInt8.ofNat (v / 262144 % 0x08 + 0xf0)).toNat ∧
        (UInt8.ofNat (v / 262144 % 0x08 + 0xf0)).toNat ≤ 0xF4 := by
      rw [h0]
      omega
    have hsecond : second4 (UInt8.ofNat (v / 262144 % 0x08 + 0xf0))
        (UInt8.ofNat (v / 4096 % 0x40 + 0x80)) = true := by
      rw [second4_iff, toNat_cont, h0]
      omega
    have h := Sequence.four hlead hsecond (isCont_cont (v / 64)) (isCont_cont v)
    rwa [h0, low6_cont, low6_cont, low6_cont, show (v / 262144 % 0x08 + 0xf0) % 8 * 262144 +
      v / 4096 % 0x40 * 4096 + v / 64 % 0x40 * 64 + v % 0x40 = v by omega] at h

theorem lead_iff {lo hi b : UInt8} :
    (lo ≤ b ∧ b ≤ hi) ↔ lo.toNat ≤ b.toNat ∧ b.toNat ≤ hi.toNat := by
  rw [UInt8.le_iff_toNat_le, UInt8.le_iff_toNat_le]

/-- A well-formed sequence is decoded to its character, whatever follows it. -/
theorem decodeOne_of_sequence {b0 : UInt8} {tail : List UInt8} {n : ℕ}
    (h : Sequence (b0 :: tail) n) (rest : List UInt8) :
    decodeOne b0 (tail ++ rest) = (Char.ofNat n, rest) := by
  unfold decodeOne
  simp only [UInt8.lt_iff_toNat_lt, lead_iff, UInt8.reduceToNat]
  cases h with
  | one h0 => rw [if_pos h0, List.nil_append]
  | two h0 h1 =>
    rw [if_neg (by omega), if_pos h0]
    simp only [List.cons_append, List.nil_append, h1, if_true]
  | three h0 h1 h2 =>
    rw [if_neg (by omega), if_neg (by omega), if_pos h0]
    simp only [List.cons_append, List.nil_append, h1, h2, Bool.not_true, Bool.false_eq_true, if_false]
  | four h0 h1 h2 h3 =>
    rw [if_neg (by omega), if_neg (by omega), if_neg (by omega), if_pos h0]
    simp only [List.cons_append, List.nil_append, h1, h2, h3, Bool.not_true, Bool.false_eq_true,
      if_false]

/-- What is decoded is a replacement character, or the character of a well-formed sequence. -/
theorem decodeOne_cases (b0 : UInt8) (rest : List UInt8) :
    (decodeOne b0 rest).1 = REPLACEMENT ∨ ∃ tail n, Sequence (b0 :: tail) n ∧
      rest = tail ++ (decodeOne b0 rest).2 ∧ (decodeOne b0 rest).1 = Char.ofNat n := by
  unfold decodeOne
  simp only [UInt8.lt_iff_toNat_lt, lead_iff, UInt8.reduceToNat]
  split_ifs with h0 h2 h3 h4
  · exact Or.inr ⟨[], _, .one h0, rfl, rfl⟩
  · split
    · next b1 r1 =>
      split_ifs with hb1
      · exact Or.inr ⟨[b1], _, .two h2 hb1, rfl, rfl⟩
      · exact Or.inl rfl
    · exact Or.inl rfl
  · split
    · next b1 b2 r2 =>
      split_ifs with hb1 hb2
      · exact Or.inl rfl
      · exact Or.inl rfl
      · exact Or.inr ⟨[b1, b2], _, .three h3 (by simpa using hb1) (by simpa using hb2), rfl, rfl⟩
    · split_ifs <;> exact Or.inl rfl
    · exact Or.inl rfl
  · split
    · next b1 b2 b3 r3 =>
      split_ifs with hb1 hb2 hb3
      · exact Or.inl rfl
      · exact Or.inl rfl
      · exact Or.inl rfl
      · exact Or.inr ⟨[b1, b2, b3], _, .four h4 (by simpa using hb1) (by simpa using hb2)
          (by simpa using hb3), rfl, rfl⟩
    · split_ifs <;> exact Or.inl rfl
    · split_ifs <;> exact Or.inl rfl
    · exact Or.inl rfl
  · exact Or.inl rfl

theorem eq_ofNat {b : UInt8} {n : ℕ} (h : b.toNat = n) : b = UInt8.ofNat n := by
  rw [← h, UInt8.ofNat_toNat]

theorem eq_cont {b : UInt8} {n : ℕ} (h : isCont b = true) (hlow : low6 b = n % 0x40) :
    b = UInt8.ofNat (n % 0x40 + 0x80) := by
  rw [isCont_iff] at h
  unfold low6 at hlow
  exact eq_ofNat (by omega)

theorem isCont_of_second3 {b0 b1 : UInt8} (h : second3 b0 b1 = true) : isCont b1 = true := by
  rw [second3_iff] at h
  rw [isCont_iff]
  omega

theorem isCont_of_second4 {b0 b1 : UInt8} (h : second4 b0 b1 = true) : isCont b1 = true := by
  rw [second4_iff] at h
  rw [isCont_iff]
  omega

theorem low6_lt (b : UInt8) : low6 b < 64 := Nat.mod_lt _ (by decide)

theorem Sequence.isValidChar {bytes : List UInt8} {n : ℕ} (h : Sequence bytes n) :
    n.isValidChar := by
  unfold Nat.isValidChar
  cases h with
  | one h0 => omega
  | @two b0 b1 h0 h1 =>
    have := low6_lt b1
    omega
  | @three b0 b1 b2 h0 h1 h2 =>
    have := low6_lt b2
    rw [second3_iff] at h1
    unfold low6 at *
    omega
  | @four b0 b1 b2 b3 h0 h1 h2 h3 =>
    have := low6_lt b2
    have := low6_lt b3
    rw [second4_iff] at h1
    unfold low6 at *
    omega

/-- A well-formed sequence is the encoding of its character. -/
theorem Sequence.eq_encode {bytes : List UInt8} {n : ℕ} (h : Sequence bytes n) :
    bytes = String.utf8EncodeChar (Char.ofNat n) := by
  have hval : (Char.ofNat n).val.toNat = n := by
    rw [Char.ofNat, dif_pos h.isValidChar]
    rfl
  unfold String.utf8EncodeChar
  rw [hval]
  dsimp only
  cases h with
  | one h0 => rw [if_pos (by omega), UInt8.ofNat_toNat]
  | @two b0 b1 h0 h1 =>
    have hlow := low6_lt b1
    rw [if_neg (by omega), if_pos (by omega),
      ← eq_cont h1 (show low6 b1 = (b0.toNat % 32 * 64 + low6 b1) % 0x40 by omega),
      ← eq_ofNat (show b0.toNat = (b0.toNat % 32 * 64 + low6 b1) / 64 % 0x20 + 0xc0 by omega)]
  | @three b0 b1 b2 h0 h1 h2 =>
    have hlow1 := low6_lt b1
    have hlow2 := low6_lt b2
    have hge : 0x800 ≤ b0.toNat % 16 * 4096 + low6 b1 * 64 + low6 b2 := by
      rw [second3_iff] at h1
      unfold low6 at *
      omega
    generalize hn : b0.toNat % 16 * 4096 + low6 b1 * 64 + low6 b2 = n at *
    rw [if_neg (by omega), if_neg (by omega), if_pos (by omega),
      ← eq_cont h2 (show low6 b2 = n % 0x40 by omega),
      ← eq_cont (isCont_of_second3 h1) (show low6 b1 = n / 64 % 0x40 by omega),
      ← eq_ofNat (show b0.toNat = n / 4096 % 0x10 + 0xe0 by omega)]
  | @four b0 b1 b2 b3 h0 h1 h2 h3 =>
    have hlow1 := low6_lt b1
    have hlow2 := low6_lt b2
    have hlow3 := low6_lt b3
    have hge : 0x10000 ≤ b0.toNat % 8 * 262144 + low6 b1 * 4096 + low6 b2 * 64 + low6 b3 := by
      rw [second4_iff] at h1
      unfold low6 at *
      omega
    generalize hn : b0.toNat % 8 * 262144 + low6 b1 * 4096 + low6 b2 * 64 + low6 b3 = n at *
    rw [if_neg (by omega), if_neg (by omega), if_neg (by omega),
      ← eq_cont h3 (show low6 b3 = n % 0x40 by omega),
      ← eq_cont h2 (show low6 b2 = n / 64 % 0x40 by omega),
      ← eq_cont (isCont_of_second4 h1) (show low6 b1 = n / 4096 % 0x40 by omega),
      ← eq_ofNat (show b0.toNat = n / 262144 % 0x08 + 0xf0 by omega)]

theorem decodeLossy_cons (b0 : UInt8) (rest : List UInt8) :
    decodeLossy (b0 :: rest) = (decodeOne b0 rest).1 :: decodeLossy (decodeOne b0 rest).2 := by
  rw [decodeLossy]

theorem decodeLossy_encode_append (c : Char) (rest : List UInt8) :
    decodeLossy (String.utf8EncodeChar c ++ rest) = c :: decodeLossy rest := by
  have h := sequence_encode c
  cases hbytes : String.utf8EncodeChar c with
  | nil =>
    rw [hbytes] at h
    cases h
  | cons b0 tail =>
    rw [hbytes] at h
    rw [List.cons_append, decodeLossy_cons, decodeOne_of_sequence h, Char.ofNat_toNat]

/-- Decoding undoes encoding. -/
theorem decodeLossy_encode (cs : List Char) :
    decodeLossy (cs.flatMap String.utf8EncodeChar) = cs := by
  induction cs with
  | nil => rw [List.flatMap_nil, decodeLossy]
  | cons c cs ih => rw [List.flatMap_cons, decodeLossy_encode_append, ih]

/-- Bytes decoded without a replacement character are the encoding of what they are decoded to. -/
theorem encode_decodeLossy {bytes : List UInt8} (h : REPLACEMENT ∉ decodeLossy bytes) :
    (decodeLossy bytes).flatMap String.utf8EncodeChar = bytes := by
  induction bytes using decodeLossy.induct with
  | case1 => rw [decodeLossy, List.flatMap_nil]
  | case2 b0 rest ih =>
    rw [decodeLossy_cons] at h ⊢
    have hfirst := List.ne_of_not_mem_cons h
    have hrest := List.not_mem_of_not_mem_cons h
    rcases decodeOne_cases b0 rest with hrep | ⟨tail, n, hseq, hsplit, hchar⟩
    · exact absurd hrep.symm hfirst
    · rw [List.flatMap_cons, ih hrest, hchar, ← hseq.eq_encode, List.cons_append, ← hsplit]

end UfsForensic.Utf8
