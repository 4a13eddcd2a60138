import Mathlib.Data.List.Basic
import Mathlib.Data.List.GetD
import Mathlib.Logic.Equiv.Defs
import Mathlib.Tactic.Ring
import UfsForensic.Lib.Saturating

/-!
# Byte strings

A byte string is a length together with the byte at each index. Reading past the end gives `0`,
so byte strings with the same contents are equal, and a slice costs no copy: a model over byte
strings stays executable on images of any size. `Bytes.equivList` identifies them with the lists
of bytes that fit in memory.
-/

namespace UfsForensic

/-- A byte string in memory. No allocation reaches `2 ^ 63` bytes. -/
structure Bytes where
  len : ℕ
  byte : ℕ → UInt8
  len_lt : len < 2 ^ 63
  byte_eq_zero : ∀ i, len ≤ i → byte i = 0

namespace Bytes

theorem ext_of_lt {a b : Bytes} (hlen : a.len = b.len)
    (h : ∀ i < a.len, a.byte i = b.byte i) : a = b := by
  have hf : a.byte = b.byte := by
    funext i
    rcases Nat.lt_or_ge i a.len with hi | hi
    · exact h i hi
    · rw [a.byte_eq_zero i hi, b.byte_eq_zero i (hlen ▸ hi)]
  cases a
  cases b
  cases hlen
  cases hf
  rfl

theorem eq_iff {a b : Bytes} : a = b ↔ a.len = b.len ∧ ∀ i < a.len, a.byte i = b.byte i :=
  ⟨fun h => h ▸ ⟨rfl, fun _ _ => rfl⟩, fun h => ext_of_lt h.1 h.2⟩

instance : DecidableEq Bytes := fun a b =>
  decidable_of_iff (a.len = b.len ∧ ∀ i < a.len, a.byte i = b.byte i) eq_iff.symm

theorem len_lt_u64Max (data : Bytes) : data.len < u64Max := by
  have := data.len_lt
  unfold u64Max
  omega

/-- The byte string of length `n` with byte `f i` at index `i`. -/
def tabulate (n : ℕ) (hn : n < 2 ^ 63) (f : ℕ → UInt8) : Bytes where
  len := n
  byte i := if i < n then f i else 0
  len_lt := hn
  byte_eq_zero _ hi := if_neg (Nat.not_lt.mpr hi)

@[simp] theorem tabulate_len (n : ℕ) (hn : n < 2 ^ 63) (f : ℕ → UInt8) :
    (tabulate n hn f).len = n := rfl

theorem tabulate_byte (n : ℕ) (hn : n < 2 ^ 63) (f : ℕ → UInt8) (i : ℕ) :
    (tabulate n hn f).byte i = if i < n then f i else 0 := rfl

/-- `vec![0u8; n]` -/
def zeros (n : ℕ) (hn : n < 2 ^ 63) : Bytes := tabulate n hn fun _ => 0

@[simp] theorem zeros_byte (n : ℕ) (hn : n < 2 ^ 63) (i : ℕ) : (zeros n hn).byte i = 0 := by
  simp [zeros, tabulate_byte]

/-- `&[]` -/
def empty : Bytes := zeros 0 (by norm_num)

/-- The at most `n` bytes of `data` from index `a` on, clipped at its end. -/
def slice (data : Bytes) (a n : ℕ) : Bytes :=
  tabulate (min n (data.len - a)) (by have := data.len_lt; omega) fun i => data.byte (a + i)

@[simp] theorem slice_len (data : Bytes) (a n : ℕ) :
    (data.slice a n).len = min n (data.len - a) := rfl

theorem slice_byte (data : Bytes) (a n i : ℕ) :
    (data.slice a n).byte i = if i < n then data.byte (a + i) else 0 := by
  simp only [slice, tabulate_byte, lt_min_iff]
  split_ifs with h1 h2 h2
  · rfl
  · omega
  · exact (data.byte_eq_zero _ (by omega)).symm
  · rfl

theorem slice_byte_of_lt {data : Bytes} {a n i : ℕ} (hi : i < n) :
    (data.slice a n).byte i = data.byte (a + i) := by
  rw [slice_byte, if_pos hi]

theorem slice_zero_len (data : Bytes) : data.slice 0 data.len = data := by
  refine ext_of_lt (by simp) fun i hi => ?_
  rw [slice_len] at hi
  rw [slice_byte, if_pos (by omega), Nat.zero_add]

theorem slice_slice (data : Bytes) (a b n m : ℕ) (h : b + m ≤ n) :
    (data.slice a n).slice b m = data.slice (a + b) m := by
  refine ext_of_lt (by simp only [slice_len]; omega) fun i hi => ?_
  simp only [slice_len] at hi
  rw [slice_byte_of_lt (by omega), slice_byte_of_lt (by omega), slice_byte_of_lt (by omega),
    Nat.add_assoc]

/-- `data.get(a..b)` -/
def get (data : Bytes) (a b : ℕ) : Option Bytes :=
  if a ≤ b ∧ b ≤ data.len then some (data.slice a (b - a)) else none

/-- `data.get(a..)` -/
def getFrom (data : Bytes) (a : ℕ) : Option Bytes :=
  if a ≤ data.len then some (data.slice a (data.len - a)) else none

/-- `&data[..n]`, for a reader that has checked `n`. -/
def take (data : Bytes) (n : ℕ) : Bytes := data.slice 0 n

theorem get_eq_some {data : Bytes} {a b : ℕ} (h : a ≤ b) (hb : b ≤ data.len) :
    data.get a b = some (data.slice a (b - a)) := if_pos ⟨h, hb⟩

theorem get_eq_none {data : Bytes} {a b : ℕ} (h : ¬ (a ≤ b ∧ b ≤ data.len)) :
    data.get a b = none := if_neg h

theorem getFrom_eq_some {data : Bytes} {a : ℕ} (h : a ≤ data.len) :
    data.getFrom a = some (data.slice a (data.len - a)) := if_pos h

theorem getFrom_eq_none {data : Bytes} {a : ℕ} (h : data.len < a) : data.getFrom a = none :=
  if_neg (Nat.not_le.mpr h)

/-- `data[a..a + src.len()].copy_from_slice(src)`, the part of `src` past the end dropped. -/
def copyAt (data : Bytes) (a : ℕ) (src : Bytes) : Bytes where
  len := data.len
  byte i := if i < data.len ∧ a ≤ i ∧ i < a + src.len then src.byte (i - a) else data.byte i
  len_lt := data.len_lt
  byte_eq_zero i hi := by
    rw [if_neg (by omega)]
    exact data.byte_eq_zero i hi

@[simp] theorem copyAt_len (data : Bytes) (a : ℕ) (src : Bytes) :
    (data.copyAt a src).len = data.len := rfl

theorem copyAt_byte_of_mem {data : Bytes} {a : ℕ} {src : Bytes} {i : ℕ}
    (hi : i < data.len) (ha : a ≤ i) (hs : i < a + src.len) :
    (data.copyAt a src).byte i = src.byte (i - a) := if_pos ⟨hi, ha, hs⟩

theorem copyAt_byte_of_not_mem {data : Bytes} {a : ℕ} {src : Bytes} {i : ℕ}
    (h : ¬ (a ≤ i ∧ i < a + src.len)) :
    (data.copyAt a src).byte i = data.byte i := if_neg fun hc => h hc.2

/-- `data[i] = b`, dropped when `i` is past the end. -/
def set (data : Bytes) (i : ℕ) (b : UInt8) : Bytes where
  len := data.len
  byte j := if j = i ∧ j < data.len then b else data.byte j
  len_lt := data.len_lt
  byte_eq_zero j hj := by
    rw [if_neg (by omega)]
    exact data.byte_eq_zero j hj

@[simp] theorem set_len (data : Bytes) (i : ℕ) (b : UInt8) : (data.set i b).len = data.len := rfl

theorem set_byte_self {data : Bytes} {i : ℕ} (b : UInt8) (h : i < data.len) :
    (data.set i b).byte i = b := if_pos ⟨rfl, h⟩

theorem set_byte_of_ne {data : Bytes} {i j : ℕ} (b : UInt8) (h : j ≠ i) :
    (data.set i b).byte j = data.byte j := if_neg fun hc => h hc.1

/-- `data[a..a + n].fill(0)`, clipped at the end. -/
def zeroAt (data : Bytes) (a n : ℕ) : Bytes where
  len := data.len
  byte i := if a ≤ i ∧ i < a + n then 0 else data.byte i
  len_lt := data.len_lt
  byte_eq_zero i hi := by
    rw [data.byte_eq_zero i hi, ite_self]

@[simp] theorem zeroAt_len (data : Bytes) (a n : ℕ) : (data.zeroAt a n).len = data.len := rfl

theorem zeroAt_byte_of_not_mem {data : Bytes} {a n i : ℕ} (h : ¬ (a ≤ i ∧ i < a + n)) :
    (data.zeroAt a n).byte i = data.byte i := if_neg h

def toList (data : Bytes) : List UInt8 := (List.range data.len).map data.byte

@[simp] theorem toList_length (data : Bytes) : data.toList.length = data.len := by
  simp [toList]

theorem toList_getElem (data : Bytes) (i : ℕ) (h : i < data.toList.length) :
    data.toList[i] = data.byte i := by
  simp [toList]

def ofList (l : List UInt8) (h : l.length < 2 ^ 63) : Bytes where
  len := l.length
  byte i := l.getD i 0
  len_lt := h
  byte_eq_zero _ hi := List.getD_eq_default _ _ hi

theorem toList_ofList (l : List UInt8) (h : l.length < 2 ^ 63) : (ofList l h).toList = l := by
  refine List.ext_getElem (by simp [ofList]) fun i h1 h2 => ?_
  rw [toList_getElem]
  exact List.getD_eq_getElem _ _ h2

theorem ofList_toList (data : Bytes) (h : data.toList.length < 2 ^ 63) :
    ofList data.toList h = data := by
  refine ext_of_lt (toList_length data) fun i hi => ?_
  exact (List.getD_eq_getElem _ _ hi).trans (toList_getElem data i hi)

/-- Byte strings are exactly the lists of bytes that fit in memory. -/
def equivList : Bytes ≃ { l : List UInt8 // l.length < 2 ^ 63 } where
  toFun data := ⟨data.toList, by simpa using data.len_lt⟩
  invFun l := ofList l.1 l.2
  left_inv data := ofList_toList data _
  right_inv l := Subtype.ext (toList_ofList l.1 l.2)

theorem toList_injective : Function.Injective toList := fun _ _ h =>
  equivList.injective (Subtype.ext h)

/-- Byte `i` of a zero image overlaid with byte runs at given offsets, the first run that covers
`i` winning. -/
def patchByte : List (ℕ × List UInt8) → ℕ → UInt8
  | [], _ => 0
  | (off, run) :: rest, i =>
    if off ≤ i ∧ i < off + run.length then run.getD (i - off) 0 else patchByte rest i

/-- The image of length `n` with the given byte runs over zeros. -/
def ofPatches (n : ℕ) (hn : n < 2 ^ 63) (patches : List (ℕ × List UInt8)) : Bytes :=
  tabulate n hn (patchByte patches)

theorem patchByte_append_of_past {patches rest : List (ℕ × List UInt8)} {i : ℕ}
    (h : ∀ r ∈ rest, i < r.1) : patchByte (patches ++ rest) i = patchByte patches i := by
  induction patches with
  | nil =>
    induction rest with
    | nil => rfl
    | cons r rest ih =>
      have hr : ¬ (r.1 ≤ i ∧ i < r.1 + r.2.length) := fun hc =>
        absurd (h r List.mem_cons_self) (Nat.not_lt.mpr hc.1)
      have hrest := ih fun s hs => h s (List.mem_cons_of_mem r hs)
      rw [List.nil_append] at hrest ⊢
      exact (if_neg hr).trans hrest
  | cons r patches ih =>
    rw [List.cons_append, patchByte, patchByte, ih]

theorem slice_ofPatches_append {n : ℕ} (hn : n < 2 ^ 63) {patches rest : List (ℕ × List UInt8)}
    {a m : ℕ} (h : ∀ r ∈ rest, a + m ≤ r.1) :
    (ofPatches n hn (patches ++ rest)).slice a m = (ofPatches n hn patches).slice a m := by
  refine ext_of_lt rfl fun i hi => ?_
  rw [slice_len] at hi
  have hrest : ∀ r ∈ rest, a + i < r.1 := by
    intro r hr
    have := h r hr
    omega
  rw [slice_byte_of_lt (by omega), slice_byte_of_lt (by omega), ofPatches, ofPatches,
    tabulate_byte, tabulate_byte, patchByte_append_of_past hrest]

/-- The `width` little-endian bytes of `n`. -/
def leBytes : (width n : ℕ) → List UInt8
  | 0, _ => []
  | width + 1, n => UInt8.ofNat n :: leBytes width (n / 256)

/-- Two byte strings of one length with the same bytes at the positions in `S`. -/
structure AgreeOn (p q : Bytes) (S : Set ℕ) : Prop where
  len_eq : p.len = q.len
  byte_eq : ∀ i ∈ S, p.byte i = q.byte i

theorem AgreeOn.mono {p q : Bytes} {S T : Set ℕ} (h : AgreeOn p q S) (hT : T ⊆ S) :
    AgreeOn p q T := ⟨h.len_eq, fun i hi => h.byte_eq i (hT hi)⟩

theorem AgreeOn.slice_eq {p q : Bytes} {S : Set ℕ} (h : AgreeOn p q S) {a n : ℕ}
    (hS : ∀ i, a ≤ i → i < a + n → i ∈ S) : p.slice a n = q.slice a n := by
  refine ext_of_lt (by rw [slice_len, slice_len, h.len_eq]) fun i hi => ?_
  rw [slice_len] at hi
  rw [slice_byte_of_lt (by omega), slice_byte_of_lt (by omega)]
  exact h.byte_eq _ (hS _ (by omega) (by omega))

theorem AgreeOn.symm {p q : Bytes} {S : Set ℕ} (h : AgreeOn p q S) : AgreeOn q p S :=
  ⟨h.len_eq.symm, fun i hi => (h.byte_eq i hi).symm⟩

theorem AgreeOn.get_eq {p q : Bytes} {S : Set ℕ} (h : AgreeOn p q S) {a b : ℕ}
    (hS : ∀ i, a ≤ i → i < b → i ∈ S) : p.get a b = q.get a b := by
  unfold get
  rw [h.len_eq, h.slice_eq (n := b - a) fun i h1 h2 => hS i h1 (by omega)]

/-- The number with little-endian digits `b 0, …, b (n - 1)`. -/
def leNat (b : ℕ → UInt8) : ℕ → ℕ
  | 0 => 0
  | n + 1 => leNat b n + 256 ^ n * (b n).toNat

/-- The number with big-endian digits `b 0, …, b (n - 1)`. -/
def beNat (b : ℕ → UInt8) (n : ℕ) : ℕ := leNat (fun i => b (n - 1 - i)) n

theorem leNat_lt (b : ℕ → UInt8) (n : ℕ) : leNat b n < 256 ^ n := by
  induction n with
  | zero => simp [leNat]
  | succ n ih =>
    have hb : (b n).toNat ≤ 255 := by have := (b n).toNat_lt; omega
    calc leNat b n + 256 ^ n * (b n).toNat
        < 256 ^ n + 256 ^ n * (b n).toNat := Nat.add_lt_add_right ih _
      _ ≤ 256 ^ n + 256 ^ n * 255 := Nat.add_le_add_left (Nat.mul_le_mul_left _ hb) _
      _ = 256 ^ (n + 1) := by ring

theorem leNat_inj {b c : ℕ → UInt8} {n : ℕ} (h : leNat b n = leNat c n) : ∀ i < n, b i = c i := by
  induction n with
  | zero => exact fun i hi => absurd hi (Nat.not_lt_zero i)
  | succ n ih =>
    rw [leNat, leNat] at h
    have hb := leNat_lt b n
    have hc := leNat_lt c n
    have hpos : 0 < 256 ^ n := Nat.pow_pos (by norm_num)
    have hlow : leNat b n = leNat c n := by
      have := congrArg (· % 256 ^ n) h
      simpa [Nat.add_mul_mod_self_left, Nat.mod_eq_of_lt hb, Nat.mod_eq_of_lt hc] using this
    have htop : (b n).toNat = (c n).toNat := by
      rw [hlow] at h
      exact Nat.eq_of_mul_eq_mul_left hpos (Nat.add_left_cancel h)
    intro i hi
    rcases Nat.lt_succ_iff_lt_or_eq.mp hi with hlt | rfl
    · exact ih hlow i hlt
    · exact UInt8.toNat_inj.mp htop

theorem leNat_congr {b c : ℕ → UInt8} {n : ℕ} (h : ∀ i < n, b i = c i) :
    leNat b n = leNat c n := by
  induction n with
  | zero => rfl
  | succ n ih => rw [leNat, leNat, ih fun i hi => h i (by omega), h n (by omega)]

theorem beNat_congr {b c : ℕ → UInt8} {n : ℕ} (h : ∀ i < n, b i = c i) :
    beNat b n = beNat c n := leNat_congr fun i hi => h _ (by omega)

/-- The bytes of `data.get(off..off + n)`, or zeros when the range is not inside `data`. -/
def window (data : Bytes) (off n : ℕ) : ℕ → UInt8 :=
  match data.get off (satAdd off n) with
  | some s => s.byte
  | none => fun _ => 0

theorem window_eq {data : Bytes} {off n i : ℕ} (h : off + n ≤ data.len) (hi : i < n) :
    data.window off n i = data.byte (off + i) := by
  have := data.len_lt_u64Max
  rw [window, satAdd_eq (by omega), get_eq_some (by omega) h]
  exact slice_byte_of_lt (by omega)

theorem window_eq_zero {data : Bytes} {off n : ℕ} (h : data.len < off + n) (i : ℕ) :
    data.window off n i = 0 := by
  have hlen := data.len_lt_u64Max
  rw [window, get_eq_none]
  intro hc
  have := (satAdd_le_iff hlen).mp hc.2
  omega

theorem window_slice {data : Bytes} {a n off k i : ℕ} (h : off + k ≤ n) (hi : i < k) :
    (data.slice a n).window off k i = data.window (a + off) k i := by
  rcases Nat.lt_or_ge data.len (a + off + k) with hl | hl
  · rw [window_eq_zero hl, window_eq_zero]
    rw [slice_len]
    omega
  · rw [window_eq hl hi, window_eq (by rw [slice_len]; omega) hi, slice_byte_of_lt (by omega),
      Nat.add_assoc]

/-- The first `q.len` bytes of `p` are those of `q`. -/
structure IsPrefix (q p : Bytes) : Prop where
  len_le : q.len ≤ p.len
  byte_eq : ∀ i < q.len, q.byte i = p.byte i

theorem take_isPrefix (p : Bytes) (n : ℕ) : (p.take n).IsPrefix p where
  len_le := by
    change min n (p.len - 0) ≤ p.len
    omega
  byte_eq i hi := by
    change i < min n (p.len - 0) at hi
    rw [take, slice_byte_of_lt (by omega), Nat.zero_add]

namespace IsPrefix

variable {p q : Bytes} (h : q.IsPrefix p)
include h

/-- Cutting a byte string only ever turns a byte into zero. -/
theorem byte_eq_or (i : ℕ) : q.byte i = p.byte i ∨ q.byte i = 0 := by
  rcases Nat.lt_or_ge i q.len with hi | hi
  · exact Or.inl (h.byte_eq i hi)
  · exact Or.inr (q.byte_eq_zero i hi)

theorem slice_isPrefix (a n : ℕ) : (q.slice a n).IsPrefix (p.slice a n) where
  len_le := by
    have := h.len_le
    simp only [slice_len]
    omega
  byte_eq i hi := by
    rw [slice_len] at hi
    rw [slice_byte_of_lt (by omega), slice_byte_of_lt (by omega)]
    exact h.byte_eq _ (by omega)

theorem slice_eq {a n : ℕ} (hn : a + n ≤ q.len) : q.slice a n = p.slice a n := by
  have hle := h.len_le
  refine ext_of_lt (by simp only [slice_len]; omega) fun i hi => ?_
  exact (h.slice_isPrefix a n).byte_eq i hi

theorem window_eq {off n i : ℕ} (hn : off + n ≤ q.len) (hi : i < n) :
    q.window off n i = p.window off n i := by
  have hle := h.len_le
  rw [Bytes.window_eq hn hi, Bytes.window_eq (by omega) hi]
  exact h.byte_eq _ (by omega)

end IsPrefix

end Bytes
end UfsForensic
