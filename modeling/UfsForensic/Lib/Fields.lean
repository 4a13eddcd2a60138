import Mathlib.Data.List.GetD
import Mathlib.Data.List.Sort
import UfsForensic.Lib.Bytes

/-!
# Fields of a byte string

Runs of bytes written over a byte string at given offsets. When no two runs meet, each is read back
where it was written, and everything else is as before. The digits of a number are the run that an
integer field takes.
-/

namespace UfsForensic.Bytes

/-- A run of bytes and the offset it is written at. -/
abbrev Run := ℕ × List UInt8

def Run.span (r : Run) : ℕ × ℕ := (r.1, r.2.length)

/-- The two runs cover no common position. -/
def Run.Apart (r s : Run) : Prop := r.1 + r.2.length ≤ s.1 ∨ s.1 + s.2.length ≤ r.1

instance (r s : Run) : Decidable (Run.Apart r s) := inferInstanceAs (Decidable (_ ∨ _))

theorem pairwise_apart_iff {runs : List Run} : runs.Pairwise Run.Apart ↔
    (runs.map Run.span).Pairwise fun a b => a.1 + a.2 ≤ b.1 ∨ b.1 + b.2 ≤ a.1 := by
  rw [List.pairwise_map]
  rfl

/-- Sorted by their offsets, each run ends before the next one starts. -/
theorem pairwise_apart_of_sorted {runs : List Run}
    (h : ((runs.map Run.span).insertionSort fun a b => a.1 ≤ b.1).IsChain
      fun a b => a.1 + a.2 ≤ b.1) : runs.Pairwise Run.Apart := by
  have htrans : IsTrans (ℕ × ℕ) fun a b => a.1 + a.2 ≤ b.1 :=
    ⟨fun a b c hab hbc => by omega⟩
  rw [pairwise_apart_iff, ← (List.perm_insertionSort (fun a b => a.1 ≤ b.1) _).pairwise_iff Or.symm]
  exact (List.isChain_iff_pairwise.mp h).imp Or.inl

/-- The run is what `data` holds at its offset. -/
def HasRun (data : Bytes) (r : Run) : Prop :=
  ∀ i, (hi : i < r.2.length) → data.byte (r.1 + i) = r.2[i]

/-- Overwrite `data` with one run, dropping what lies past the end. -/
def write (data : Bytes) (r : Run) : Bytes where
  len := data.len
  byte i :=
    if r.1 ≤ i ∧ i < r.1 + r.2.length ∧ i < data.len then r.2.getD (i - r.1) 0 else data.byte i
  len_lt := data.len_lt
  byte_eq_zero i hi := by
    rw [if_neg (by omega)]
    exact data.byte_eq_zero i hi

/-- Overwrite `data` with the runs, one after the other. -/
def writeAll (data : Bytes) (runs : List Run) : Bytes := runs.foldl write data

variable {data : Bytes} {runs : List Run} {r : Run} {i : ℕ}

@[simp] theorem write_len (data : Bytes) (r : Run) : (data.write r).len = data.len := rfl

theorem write_byte_of_mem (hi : i < r.2.length) (hlen : r.1 + i < data.len) :
    (data.write r).byte (r.1 + i) = r.2[i] := by
  have hcond : r.1 ≤ r.1 + i ∧ r.1 + i < r.1 + r.2.length ∧ r.1 + i < data.len := by omega
  change (if _ then _ else _) = _
  rw [if_pos hcond, Nat.add_sub_cancel_left]
  exact List.getD_eq_getElem _ _ hi

theorem write_byte_of_not_mem (h : ¬ (r.1 ≤ i ∧ i < r.1 + r.2.length)) :
    (data.write r).byte i = data.byte i := if_neg fun hc => h ⟨hc.1, hc.2.1⟩

@[simp] theorem writeAll_len (data : Bytes) (runs : List Run) :
    (data.writeAll runs).len = data.len := by
  induction runs generalizing data with
  | nil => rfl
  | cons r runs ih => exact ih (data.write r)

theorem writeAll_byte_of_not_mem (h : ∀ r ∈ runs, ¬ (r.1 ≤ i ∧ i < r.1 + r.2.length)) :
    (data.writeAll runs).byte i = data.byte i := by
  induction runs generalizing data with
  | nil => rfl
  | cons r runs ih =>
    have hrest : ((data.write r).writeAll runs).byte i = (data.write r).byte i :=
      ih fun s hs => h s (List.mem_cons_of_mem _ hs)
    exact hrest.trans (write_byte_of_not_mem (h r List.mem_cons_self))

/-- Runs that lie apart are all there after the last write. -/
theorem writeAll_hasRun (hapart : runs.Pairwise Run.Apart) (hr : r ∈ runs)
    (hlen : r.1 + r.2.length ≤ data.len) : (data.writeAll runs).HasRun r := by
  intro i hi
  induction runs generalizing data with
  | nil => exact absurd hr List.not_mem_nil
  | cons s runs ih =>
    obtain ⟨hs, hrest⟩ := List.pairwise_cons.mp hapart
    rcases List.mem_cons.mp hr with rfl | hr
    · -- no later run touches it
      have hkeep :
          ((data.write r).writeAll runs).byte (r.1 + i) = (data.write r).byte (r.1 + i) := by
        apply writeAll_byte_of_not_mem
        intro t ht
        have := hs t ht
        unfold Run.Apart at this
        omega
      exact hkeep.trans (write_byte_of_mem hi (by omega))
    · exact ih hrest hr (show r.1 + r.2.length ≤ (data.write s).len from hlen)

theorem writeAll_eq_self (h : ∀ r ∈ runs, data.HasRun r) : data.writeAll runs = data := by
  induction runs with
  | nil => rfl
  | cons r runs ih =>
    have hself : data.write r = data := by
      refine ext_of_lt rfl fun j hj => ?_
      rw [write_len] at hj
      by_cases hin : r.1 ≤ j ∧ j < r.1 + r.2.length
      · obtain ⟨k, rfl⟩ := Nat.exists_eq_add_of_le hin.1
        rw [write_byte_of_mem (by omega) hj, h r List.mem_cons_self k (by omega)]
      · exact write_byte_of_not_mem hin
    change (data.write r).writeAll runs = data
    rw [hself]
    exact ih fun s hs => h s (List.mem_cons_of_mem _ hs)

theorem hasRun_append_iff {a : ℕ} {l m : List UInt8} :
    data.HasRun (a, l ++ m) ↔ data.HasRun (a, l) ∧ data.HasRun (a + l.length, m) := by
  constructor
  · intro h
    constructor
    · intro i (hi : i < l.length)
      rw [h i (by rw [List.length_append]; omega)]
      exact List.getElem_append_left hi
    · intro i (hi : i < m.length)
      have hnext := h (l.length + i) (by rw [List.length_append]; omega)
      rw [List.getElem_append_right (Nat.le_add_right _ _)] at hnext
      simpa [Nat.add_assoc] using hnext
  · rintro ⟨hl, hm⟩ i (hi : i < (l ++ m).length)
    rcases Nat.lt_or_ge i l.length with hlt | hge
    · rw [List.getElem_append_left hlt]
      exact hl i hlt
    · have hnext := hm (i - l.length) (show i - l.length < m.length by
        rw [List.length_append] at hi
        omega)
      rw [List.getElem_append_right hge]
      rwa [Nat.add_assoc, Nat.add_sub_cancel' hge] at hnext

/-- What stands in the list of bytes after `pre` is a run at the offset `pre.length`. -/
theorem hasRun_of_toList {pre run rest : List UInt8} (h : data.toList = pre ++ (run ++ rest)) :
    data.HasRun (pre.length, run) := by
  intro i (hi : i < run.length)
  have hin : pre.length + i < data.toList.length := by
    rw [h, List.length_append, List.length_append]
    omega
  rw [← toList_getElem data _ hin]
  simp only [h]
  rw [List.getElem_append_right (Nat.le_add_right _ _)]
  simp only [Nat.add_sub_cancel_left]
  exact List.getElem_append_left hi

theorem toList_slice_of_hasRun {a : ℕ} {run : List UInt8} (h : data.HasRun (a, run))
    (hlen : a + run.length ≤ data.len) : (data.slice a run.length).toList = run := by
  refine List.ext_getElem (by rw [toList_length, slice_len]; omega) fun i h1 h2 => ?_
  rw [toList_getElem, slice_byte_of_lt h2]
  exact h i h2

theorem hasRun_flatMap_iff {α : Type*} {f : α → List UInt8} {width : ℕ}
    (hf : ∀ x, (f x).length = width) {l : List α} {a : ℕ} :
    data.HasRun (a, l.flatMap f) ↔
      ∀ j, (hj : j < l.length) → data.HasRun (a + j * width, f l[j]) := by
  induction l generalizing a with
  | nil =>
    exact iff_of_true (fun i hi => absurd hi (Nat.not_lt_zero i))
      fun j hj => absurd hj (Nat.not_lt_zero j)
  | cons x l ih =>
    have hshift (j : ℕ) : a + width + j * width = a + (j + 1) * width := by
      rw [Nat.succ_mul]
      omega
    rw [List.flatMap_cons, hasRun_append_iff, hf, ih]
    simp only [hshift]
    constructor
    · rintro ⟨hx, hl⟩ j hj
      cases j with
      | zero => simpa using hx
      | succ j => exact hl j (Nat.lt_of_succ_lt_succ hj)
    · intro h
      refine ⟨?_, fun j hj => h (j + 1) (Nat.succ_lt_succ hj)⟩
      simpa using h 0 (Nat.succ_pos _)

/-- The run is there, wholly inside. -/
structure Stores (data : Bytes) (r : Run) : Prop where
  hasRun : data.HasRun r
  inside : r.1 + r.2.length ≤ data.len

/-- After runs that lie apart and inside have been written, all of them are stored. -/
theorem writeAll_stores (hapart : runs.Pairwise Run.Apart)
    (hinside : ∀ r ∈ runs, r.1 + r.2.length ≤ data.len) :
    ∀ r ∈ runs, (data.writeAll runs).Stores r := by
  intro r hr
  refine ⟨writeAll_hasRun hapart hr (hinside r hr), ?_⟩
  rw [writeAll_len]
  exact hinside r hr

theorem Stores.writeAll (h : data.Stores r) (hapart : ∀ e ∈ runs, Run.Apart e r) :
    (data.writeAll runs).Stores r := by
  refine ⟨fun i hi => ?_, ?_⟩
  · rw [writeAll_byte_of_not_mem]
    · exact h.hasRun i hi
    · intro e he
      have := hapart e he
      unfold Run.Apart at this
      omega
  · rw [writeAll_len]
    exact h.inside

theorem Stores.slice_toList {a : ℕ} {run : List UInt8} (h : data.Stores (a, run)) :
    (data.slice a run.length).toList = run := toList_slice_of_hasRun h.hasRun h.inside

section Replaced

variable {α β : Type*} {r s : β}

/-- The second list is the first one with `s` in place of one `r`. -/
def Replaced (r s : β) (l m : List β) : Prop :=
  ∃ front back, l = front ++ r :: back ∧ m = front ++ s :: back

theorem Replaced.mem_left {l m : List β} (h : Replaced r s l m) : r ∈ l := by
  obtain ⟨front, back, rfl, -⟩ := h
  simp

theorem Replaced.mem_right {l m : List β} (h : Replaced r s l m) : s ∈ m := by
  obtain ⟨front, back, -, rfl⟩ := h
  simp

theorem Replaced.append_left {l m : List β} (h : Replaced r s l m) (pre : List β) :
    Replaced r s (pre ++ l) (pre ++ m) := by
  obtain ⟨front, back, rfl, rfl⟩ := h
  exact ⟨pre ++ front, back, by simp, by simp⟩

theorem Replaced.append_right {l m : List β} (h : Replaced r s l m) (post : List β) :
    Replaced r s (l ++ post) (m ++ post) := by
  obtain ⟨front, back, rfl, rfl⟩ := h
  exact ⟨front, back ++ post, by simp, by simp⟩

theorem Replaced.flatMap {l : List α} (hnd : l.Nodup) {a : α} (ha : a ∈ l) {f g : α → List β}
    (h : Replaced r s (f a) (g a)) (hrest : ∀ b ∈ l, b ≠ a → f b = g b) :
    Replaced r s (l.flatMap f) (l.flatMap g) := by
  obtain ⟨front, back, rfl⟩ := List.append_of_mem ha
  rw [List.perm_middle.nodup_iff, List.nodup_cons, List.mem_append, not_or] at hnd
  have hfront : front.flatMap f = front.flatMap g :=
    List.flatMap_congr fun b hb => hrest b (List.mem_append_left _ hb) fun h => hnd.1.1 (h ▸ hb)
  have hback : back.flatMap f = back.flatMap g :=
    List.flatMap_congr fun b hb => hrest b (List.mem_append_right _ (List.mem_cons_of_mem _ hb))
      fun h => hnd.1.2 (h ▸ hb)
  rw [List.flatMap_append, List.flatMap_append, List.flatMap_cons, List.flatMap_cons, hfront, hback]
  exact (h.append_right _).append_left _

theorem Replaced.map_eq {γ : Type*} {l m : List β} (h : Replaced r s l m) {f : β → γ}
    (hf : f s = f r) : m.map f = l.map f := by
  obtain ⟨front, back, rfl, rfl⟩ := h
  simp [hf]

end Replaced

theorem writeAll_byte_congr {data' : Bytes} (hlen : data.len = data'.len)
    (hi : data.byte i = data'.byte i) :
    (data.writeAll runs).byte i = (data'.writeAll runs).byte i := by
  induction runs generalizing data data' with
  | nil => exact hi
  | cons r runs ih =>
    refine @ih (data.write r) (data'.write r) hlen ?_
    change (if _ then _ else _) = (if _ then _ else _)
    rw [hlen, hi]

/-- What differs from the written data in one run is the data written with that run. -/
theorem eq_writeAll_of_replaced {runs' : List Run} {s : Run} (h : Replaced r s runs runs')
    (hspan : s.span = r.span) (hapart : runs.Pairwise Run.Apart)
    (hinside : r.1 + r.2.length ≤ data.len) {q : Bytes} (hlen : q.len = data.len)
    (hrun : q.HasRun s)
    (hkeep : ∀ i, ¬ (r.1 ≤ i ∧ i < r.1 + r.2.length) → q.byte i = (data.writeAll runs).byte i) :
    q = data.writeAll runs' := by
  obtain ⟨hstart, hlength⟩ := Prod.mk.inj hspan
  refine ext_of_lt (by rw [hlen, writeAll_len]) fun i hi => ?_
  by_cases hin : r.1 ≤ i ∧ i < r.1 + r.2.length
  · obtain ⟨k, rfl⟩ := Nat.exists_eq_add_of_le hin.1
    have hk : k < s.2.length := by omega
    have hapart' : runs'.Pairwise Run.Apart := by
      rw [pairwise_apart_iff, h.map_eq hspan, ← pairwise_apart_iff]
      exact hapart
    have hwritten := @writeAll_hasRun data _ _ hapart' h.mem_right (by omega) k hk
    rw [← hstart, hrun k hk, hwritten]
  · rw [hkeep i hin]
    obtain ⟨front, back, rfl, rfl⟩ := h
    -- the two runs cover the same positions, and `i` is none of them
    have hmid : ((data.writeAll front).write r).byte i = ((data.writeAll front).write s).byte i := by
      rw [write_byte_of_not_mem hin, write_byte_of_not_mem (by omega)]
    rw [writeAll, writeAll, List.foldl_append, List.foldl_append]
    change (((data.writeAll front).write r).writeAll back).byte i =
      (((data.writeAll front).write s).writeAll back).byte i
    exact writeAll_byte_congr rfl hmid

/-- The list with the `n` bytes from `pos` on replaced by zeros. -/
def zeroRange (l : List UInt8) (pos n : ℕ) : List UInt8 :=
  l.mapIdx fun i x => if pos ≤ i ∧ i < pos + n then 0 else x

@[simp] theorem zeroRange_length (l : List UInt8) (pos n : ℕ) :
    (zeroRange l pos n).length = l.length := List.length_mapIdx

theorem zeroRange_getElem {l : List UInt8} {pos n i : ℕ} (hi : i < (zeroRange l pos n).length)
    (hi' : i < l.length) :
    (zeroRange l pos n)[i] = if pos ≤ i ∧ i < pos + n then 0 else l[i] := by
  simp [zeroRange]

theorem zeroRange_append (pre mid post : List UInt8) :
    zeroRange (pre ++ (mid ++ post)) pre.length mid.length =
      pre ++ (List.replicate mid.length 0 ++ post) := by
  refine List.ext_getElem (by simp) fun i h1 h2 => ?_
  rw [zeroRange_getElem h1 (by simpa using h1)]
  simp only [List.getElem_append, List.length_replicate, List.getElem_replicate]
  split_ifs <;> first | rfl | omega

theorem HasRun.zeroAt {a : ℕ} {l : List UInt8} (h : data.HasRun (a, l)) (pos n : ℕ) :
    (data.zeroAt (a + pos) n).HasRun (a, zeroRange l pos n) := by
  intro i hi
  have hi' : i < l.length := by simpa using hi
  simp only
  rw [zeroRange_getElem hi hi']
  by_cases hin : pos ≤ i ∧ i < pos + n
  · rw [if_pos hin]
    exact if_pos ⟨by omega, by omega⟩
  · rw [if_neg hin, zeroAt_byte_of_not_mem (by omega)]
    exact h i hi'

/-- Spans from `base` on that follow each other within `n` are no longer together than the room. -/
theorem sum_widths_le {spans : List (ℕ × ℕ)} {base n : ℕ} (hbase : base ≤ n)
    (horder : spans.Pairwise fun a b => a.1 + a.2 ≤ b.1)
    (hin : ∀ a ∈ spans, base ≤ a.1 ∧ a.1 + a.2 ≤ n) :
    base + (spans.map Prod.snd).sum ≤ n := by
  induction spans generalizing base with
  | nil => simpa using hbase
  | cons a spans ih =>
    obtain ⟨hfirst, hrest⟩ := List.pairwise_cons.mp horder
    obtain ⟨hstart, hend⟩ := hin a List.mem_cons_self
    have hsum : a.1 + a.2 + (spans.map Prod.snd).sum ≤ n :=
      ih hend hrest fun b hb => ⟨hfirst b hb, (hin b (List.mem_cons_of_mem a hb)).2⟩
    rw [List.map_cons, List.sum_cons]
    omega

@[simp] theorem leBytes_length (width n : ℕ) : (leBytes width n).length = width := by
  induction width generalizing n with
  | zero => rfl
  | succ width ih => rw [leBytes, List.length_cons, ih]

theorem leNat_succ' (b : ℕ → UInt8) (n : ℕ) :
    leNat b (n + 1) = (b 0).toNat + 256 * leNat (fun i => b (i + 1)) n := by
  induction n with
  | zero => simp [leNat]
  | succ n ih =>
    rw [leNat, ih, leNat]
    ring

/-- A number is read back from its digits, as far as they reach. -/
theorem leNat_leBytes (width n : ℕ) :
    leNat (fun i => (leBytes width n).getD i 0) width = n % 256 ^ width := by
  induction width generalizing n with
  | zero => simp [leNat, Nat.mod_one]
  | succ width ih =>
    have hlow : (UInt8.ofNat n).toNat = n % 256 := UInt8.toNat_ofNat'
    have hrest : leNat (fun i => (leBytes (width + 1) n).getD (i + 1) 0) width =
        n / 256 % 256 ^ width := ih (n / 256)
    rw [leNat_succ', hrest, leBytes, List.getD_cons_zero, hlow, Nat.pow_succ', Nat.mod_mul]

theorem leBytes_leNat_getD (b : ℕ → UInt8) {width i : ℕ} (hi : i < width) :
    (leBytes width (leNat b width)).getD i 0 = b i := by
  apply leNat_inj _ i hi
  rw [leNat_leBytes, Nat.mod_eq_of_lt (leNat_lt b width)]

end UfsForensic.Bytes
