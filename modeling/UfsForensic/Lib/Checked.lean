import UfsForensic.Lib.Bytes

/-!
# Checked arithmetic

A computation that stops at the first operation that would panic: an overflow or underflow of
64-bit arithmetic, a division by zero, a shift by the width or more, an index, slice or copy out of
range, or a buffer that is too long. To show that a function never panics is to show that its checked
form always returns.
-/

namespace UfsForensic

/-- The reasons to stop. -/
inductive Failure
  | overflow
  | underflow
  | divisionByZero
  | outOfRange
  | capacityOverflow
  deriving DecidableEq

/-- A result, or the reason why there is none. -/
abbrev Checked (α : Type) := Except Failure α

namespace Checked

variable {α β : Type}

def add (a b : ℕ) : Checked ℕ := if a + b ≤ u64Max then .ok (a + b) else .error .overflow

def sub (a b : ℕ) : Checked ℕ := if b ≤ a then .ok (a - b) else .error .underflow

def mul (a b : ℕ) : Checked ℕ := if a * b ≤ u64Max then .ok (a * b) else .error .overflow

def div (a b : ℕ) : Checked ℕ := if b = 0 then .error .divisionByZero else .ok (a / b)

def rem (a b : ℕ) : Checked ℕ := if b = 0 then .error .divisionByZero else .ok (a % b)

/-- `a.div_ceil(b)` -/
def divCeil (a b : ℕ) : Checked ℕ := do
  let q ← div a b
  let r ← rem a b
  if r = 0 then return q else add q 1

/-- `a >> n` for a byte `a`. -/
def shrByte (a : UInt8) (n : ℕ) : Checked ℕ :=
  if n < 8 then .ok (a.toNat >>> n) else .error .overflow

/-- `v[i]` for an array `v`. -/
def index {n : ℕ} (v : Vector α n) (i : ℕ) : Checked α :=
  if h : i < n then .ok v[i] else .error .outOfRange

/-- `a + b` in 128-bit signed arithmetic. -/
def addI128 (a b : ℤ) : Checked ℤ :=
  if -2 ^ 127 ≤ a + b ∧ a + b < 2 ^ 127 then .ok (a + b) else .error .overflow

/-- `a * b` in 128-bit signed arithmetic. -/
def mulI128 (a b : ℤ) : Checked ℤ :=
  if -2 ^ 127 ≤ a * b ∧ a * b < 2 ^ 127 then .ok (a * b) else .error .overflow

/-- `vec![0; n]`, for at most `isize::MAX` bytes. -/
def zeros (n : ℕ) : Checked Bytes :=
  if h : n < 2 ^ 63 then .ok (Bytes.zeros n h) else .error .capacityOverflow

/-- `&data[a..b]` -/
def slice (data : Bytes) (a b : ℕ) : Checked Bytes :=
  if a ≤ b ∧ b ≤ data.len then .ok (data.slice a (b - a)) else .error .outOfRange

/-- `data[a..b].copy_from_slice(src)`, which wants slices of one length. -/
def copyFromSlice (data : Bytes) (a b : ℕ) (src : Bytes) : Checked Bytes :=
  if src.len = b - a then .ok (data.copyAt a src) else .error .outOfRange

@[simp] theorem ok_bind (a : α) (f : α → Checked β) : ((.ok a : Checked α) >>= f) = f a := rfl

@[simp] theorem pure_eq_ok (a : α) : (pure a : Checked α) = .ok a := rfl

theorem add_eq_ok {a b : ℕ} (h : a + b ≤ u64Max) : add a b = .ok (a + b) := if_pos h

theorem sub_eq_ok {a b : ℕ} (h : b ≤ a) : sub a b = .ok (a - b) := if_pos h

theorem mul_eq_ok {a b : ℕ} (h : a * b ≤ u64Max) : mul a b = .ok (a * b) := if_pos h

theorem div_eq_ok {b : ℕ} (h : b ≠ 0) (a : ℕ) : div a b = .ok (a / b) := if_neg h

theorem rem_eq_ok {b : ℕ} (h : b ≠ 0) (a : ℕ) : rem a b = .ok (a % b) := if_neg h

theorem divCeil_eq_ok {a b : ℕ} (h : b ≠ 0) (ha : a < u64Max) :
    divCeil a b = .ok (if a % b = 0 then a / b else a / b + 1) := by
  have hle : a / b ≤ a := Nat.div_le_self a b
  rw [divCeil, div_eq_ok h, rem_eq_ok h]
  simp only [ok_bind]
  split_ifs
  · rfl
  · exact add_eq_ok (by omega)

theorem shrByte_eq_ok {n : ℕ} (h : n < 8) (a : UInt8) : shrByte a n = .ok (a.toNat >>> n) :=
  if_pos h

theorem index_eq_ok {n : ℕ} {v : Vector α n} {i : ℕ} (h : i < n) : index v i = .ok v[i] := dif_pos h

theorem addI128_eq_ok {a b : ℤ} (h : -2 ^ 127 ≤ a + b ∧ a + b < 2 ^ 127) :
    addI128 a b = .ok (a + b) := if_pos h

theorem mulI128_eq_ok {a b : ℤ} (h : -2 ^ 127 ≤ a * b ∧ a * b < 2 ^ 127) :
    mulI128 a b = .ok (a * b) := if_pos h

theorem zeros_eq_ok {n : ℕ} (h : n < 2 ^ 63) : zeros n = .ok (Bytes.zeros n h) := dif_pos h

theorem slice_eq_ok {data : Bytes} {a b : ℕ} (h : a ≤ b) (hb : b ≤ data.len) :
    slice data a b = .ok (data.slice a (b - a)) := if_pos ⟨h, hb⟩

theorem copyFromSlice_eq_ok {data src : Bytes} {a b : ℕ} (h : src.len = b - a) :
    copyFromSlice data a b src = .ok (data.copyAt a src) := if_pos h

theorem of_add_eq_ok {a b c : ℕ} (h : add a b = .ok c) : c = a + b := by
  unfold add at h
  split_ifs at h
  exact (Except.ok.inj h).symm

theorem of_sub_eq_ok {a b c : ℕ} (h : sub a b = .ok c) : b ≤ a ∧ c = a - b := by
  unfold sub at h
  split_ifs at h with hle
  exact ⟨hle, (Except.ok.inj h).symm⟩

theorem mapM_eq_ok {l : List α} {f : α → Checked β} {g : α → β}
    (h : ∀ a ∈ l, f a = .ok (g a)) : l.mapM f = .ok (l.map g) := by
  induction l with
  | nil => rfl
  | cons a l ih =>
    rw [List.mapM_cons, h a List.mem_cons_self, ih fun b hb => h b (List.mem_cons_of_mem _ hb)]
    rfl

theorem ofFnM_eq_ok {n : ℕ} {f : Fin n → Checked α} {g : Fin n → α} (h : ∀ i, f i = .ok (g i)) :
    Vector.ofFnM f = .ok (Vector.ofFn g) := by
  rw [show f = fun i => pure (g i) from funext h, Vector.ofFnM_pure]
  rfl

/-- The bytes of `data.get(off..off + n)` copied into an array of `n` zeros. -/
def window (data : Bytes) (off n : ℕ) : Checked (ℕ → UInt8) :=
  match data.get off (satAdd off n) with
  | some s => if s.len = n then .ok s.byte else .error .outOfRange
  | none => .ok fun _ => 0

/-- A range that is inside the buffer has not been clamped, so the copy fits. -/
theorem window_eq_ok (data : Bytes) (off n : ℕ) : window data off n = .ok (data.window off n) := by
  unfold window Bytes.window
  have hlen := data.len_lt_u64Max
  by_cases h : off ≤ satAdd off n ∧ satAdd off n ≤ data.len
  · rw [Bytes.get_eq_some h.1 h.2]
    have hexact := (satAdd_le_iff hlen).mp h.2
    have hn : (data.slice off (satAdd off n - off)).len = n := by
      rw [Bytes.slice_len, satAdd_eq (by omega)]
      omega
    exact if_pos hn
  · rw [Bytes.get_eq_none h]

end Checked
end UfsForensic
