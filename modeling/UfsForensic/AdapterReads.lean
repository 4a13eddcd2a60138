import UfsForensic.Deletion
import UfsForensic.PathResolution

/-!
# Reading through the adapter

The adapter reads a file in windows: every `read_at` assembles the whole file and copies the part
that was asked for. A client that goes on from where its last read ended, with buffers of any sizes,
gets the content in order and learns from an empty read that there is no more.
-/

namespace UfsForensic

variable {fs : UfsFs} {ino : ℕ}

theorem toList_take (data : Bytes) (n : ℕ) : (data.take n).toList = data.toList.take n := by
  apply List.ext_getElem
  · rw [List.length_take, Bytes.toList_length, Bytes.toList_length, Bytes.take, Bytes.slice_len]
    rfl
  · intro i h1 h2
    rw [List.length_take, Bytes.toList_length] at h2
    rw [List.getElem_take, Bytes.toList_getElem, Bytes.toList_getElem, Bytes.take,
      Bytes.slice_byte_of_lt (by omega), Nat.zero_add]

theorem toList_slice_rest (data : Bytes) (off : ℕ) :
    (data.slice off (data.len - off)).toList = data.toList.drop off := by
  apply List.ext_getElem
  · rw [List.length_drop, Bytes.toList_length, Bytes.toList_length, Bytes.slice_len]
    exact min_self _
  · intro i h1 h2
    rw [List.length_drop, Bytes.toList_length] at h2
    rw [List.getElem_drop, Bytes.toList_getElem, Bytes.toList_getElem, Bytes.slice_byte_of_lt h2]

theorem toList_copyAt_zero {buf src : Bytes} (h : src.len ≤ buf.len) :
    (buf.copyAt 0 src).toList = src.toList ++ buf.toList.drop src.len := by
  apply List.ext_getElem
  · rw [List.length_append, List.length_drop, Bytes.toList_length, Bytes.toList_length,
      Bytes.toList_length, Bytes.copyAt_len]
    omega
  · intro i h1 h2
    rw [Bytes.toList_length, Bytes.copyAt_len] at h1
    rw [Bytes.toList_getElem]
    rcases Nat.lt_or_ge i src.len with hi | hi
    · rw [List.getElem_append_left (by rwa [Bytes.toList_length]), Bytes.toList_getElem,
        Bytes.copyAt_byte_of_mem h1 (Nat.zero_le i) (by omega), Nat.sub_zero]
    · rw [List.getElem_append_right (by rwa [Bytes.toList_length]), List.getElem_drop,
        Bytes.toList_getElem, Bytes.copyAt_byte_of_not_mem (by omega), Bytes.toList_length]
      congr 1
      omega

/-- A read fills the start of the buffer with what the file has from the offset on, and leaves the
rest of the buffer. -/
theorem readAt_eq {file : Bytes} (hread : readFile fs.image fs.sb ino = .ok file) (off : ℕ)
    (buf : Bytes) : ∃ out, fs.readAt (.byIno ino) .default off buf =
      .ok (min (file.len - off) buf.len, out) ∧
        out.toList = (file.toList.drop off).take buf.len ++ buf.toList.drop (file.len - off) := by
  rcases Nat.lt_or_ge file.len off with hoff | hoff
  · refine ⟨buf, ?_, ?_⟩
    · simp only [UfsFs.readAt, requireDefaultStream, inoOf, hread, Bytes.getFrom_eq_none hoff, bind,
        Except.bind, pure, Except.pure, Except.mapError, Nat.sub_eq_zero_of_le hoff.le,
        Nat.zero_min]
    · rw [List.drop_eq_nil_of_le (by rw [Bytes.toList_length]; exact hoff.le),
        Nat.sub_eq_zero_of_le hoff.le, List.take_nil, List.nil_append, List.drop_zero]
  · have hlen : (file.slice off (file.len - off)).len = file.len - off := min_self _
    refine ⟨buf.copyAt 0 ((file.slice off (file.len - off)).take (min (file.len - off) buf.len)),
      ?_, ?_⟩
    · simp only [UfsFs.readAt, requireDefaultStream, inoOf, hread, Bytes.getFrom_eq_some hoff, bind,
        Except.bind, pure, Except.pure, Except.mapError, hlen]
    · have htake : ((file.slice off (file.len - off)).take (min (file.len - off) buf.len)).len =
          min (file.len - off) buf.len := by
        rw [Bytes.take, Bytes.slice_len, hlen]
        omega
      rw [toList_copyAt_zero (by omega), toList_take, toList_slice_rest, htake]
      rcases Nat.le_total (file.len - off) buf.len with hle | hle
      · have hwhole : (file.toList.drop off).length ≤ buf.len := by
          rwa [List.length_drop, Bytes.toList_length]
        rw [min_eq_left hle, List.take_of_length_le hwhole, List.take_of_length_le]
        rw [List.length_drop, Bytes.toList_length]
      · have hfull : buf.toList.drop buf.len = [] :=
          List.drop_eq_nil_of_le (Bytes.toList_length buf).le
        have hpast : buf.toList.drop (file.len - off) = [] :=
          List.drop_eq_nil_of_le ((Bytes.toList_length buf).trans_le hle)
        rw [min_eq_right hle, hfull, hpast]

namespace UfsFs

/-- A client that reads into one buffer after the other, each time from where its last read ended,
and stops at the first read that returns no byte: the bytes it got, or `none` when its buffers were
used up before. -/
def readToEnd (fs : UfsFs) (id : FileId) : List Bytes → ℕ → Except VfsError (Option (List UInt8))
  | [], _ => .ok none
  | buf :: bufs, off =>
    match fs.readAt id .default off buf with
    | .error e => .error e
    | .ok (n, out) =>
      if n = 0 then .ok (some [])
      else (fs.readToEnd id bufs (off + n)).map (Option.map (out.toList.take n ++ ·))

end UfsFs

/-- The client gets the content from its offset on, in order and once, whatever the sizes of its
buffers, as soon as all buffers but the last can hold it. -/
theorem readToEnd_eq {file : Bytes} (hread : readFile fs.image fs.sb ino = .ok file)
    (bufs : List Bytes) (hbufs : ∀ buf ∈ bufs, 0 < buf.len) (off : ℕ) :
    fs.readToEnd (.byIno ino) bufs off =
      .ok (if bufs ≠ [] ∧ file.len - off ≤ (bufs.dropLast.map Bytes.len).sum then
        some (file.toList.drop off) else none) := by
  induction bufs generalizing off with
  | nil => simp [UfsFs.readToEnd]
  | cons buf bufs ih =>
    have hpos := hbufs buf List.mem_cons_self
    obtain ⟨out, hout, hlist⟩ := readAt_eq hread off buf
    rw [UfsFs.readToEnd, hout]
    dsimp only
    by_cases hend : file.len - off = 0
    · -- nothing is left
      have hnil : file.toList.drop off = [] :=
        List.drop_eq_nil_of_le (by rw [Bytes.toList_length]; omega)
      rw [hend, Nat.zero_min, if_pos rfl, if_pos ⟨List.cons_ne_nil _ _, Nat.zero_le _⟩, hnil]
    · have hne : min (file.len - off) buf.len ≠ 0 := by omega
      have htake : out.toList.take (min (file.len - off) buf.len) =
          (file.toList.drop off).take (min (file.len - off) buf.len) := by
        have hlen : ((file.toList.drop off).take buf.len).length = min (file.len - off) buf.len := by
          rw [List.length_take, List.length_drop, Bytes.toList_length, min_comm]
        rw [hlist, ← hlen, List.take_left, hlen, List.take_eq_take_min, List.length_drop,
          Bytes.toList_length]
        congr 1
        omega
      have hsplit : (file.toList.drop off).take (min (file.len - off) buf.len) ++
          file.toList.drop (off + min (file.len - off) buf.len) = file.toList.drop off := by
        rw [← List.drop_drop, List.take_append_drop]
      rw [if_neg hne, ih (fun b hb => hbufs b (List.mem_cons_of_mem _ hb)), htake]
      cases bufs with
      | nil =>
        have hno : ¬ (file.len - off ≤ 0) := by omega
        simp [Except.map, hno]
      | cons b bufs =>
        have hiff : file.len - (off + min (file.len - off) buf.len) ≤
            ((b :: bufs).dropLast.map Bytes.len).sum ↔
              file.len - off ≤ ((buf :: b :: bufs).dropLast.map Bytes.len).sum := by
          rw [List.dropLast_cons_cons, List.map_cons, List.sum_cons]
          omega
        simp only [ne_eq, reduceCtorEq, not_false_eq_true, true_and, hiff, Except.map]
        split_ifs
        · rw [Option.map_some, hsplit]
        · rfl

def Crafted.helloFs : UfsFs where
  image := hello
  sb := tinySb

def Crafted.readBuffers : List Bytes :=
  [Bytes.zeros 2 (by decide), Bytes.zeros 2 (by decide), Bytes.zeros 9 (by decide),
    Bytes.zeros 1 (by decide)]

theorem readToEnd_eq_hello :
    Crafted.helloFs.readToEnd (.byIno 3) Crafted.readBuffers 0 =
      .ok (some [104, 101, 108, 108, 111]) := by
  have hread : readFile Crafted.helloFs.image Crafted.helloFs.sb 3 = .ok Crafted.helloContent :=
    Crafted.readFile_hello
  have hroom : Crafted.readBuffers ≠ [] ∧
      Crafted.helloContent.len - 0 ≤ (Crafted.readBuffers.dropLast.map Bytes.len).sum := by
    decide
  rw [readToEnd_eq hread Crafted.readBuffers (by decide) 0, if_pos hroom]
  exact congrArg (fun l => Except.ok (some l)) (Bytes.toList_ofList _ _)

end UfsForensic
