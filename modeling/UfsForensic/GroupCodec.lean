import UfsForensic.FieldCodec
import UfsForensic.GroupHeader

/-!
# The cylinder-group header as a format

Writing the fields of a header over a buffer and parsing the buffer are inverse to each other, and no
buffer is a header in both byte orders.
-/

namespace UfsForensic

open Bytes (HasRun Run)

def Endian.other : Endian → Endian
  | .little => .big
  | .big => .little

namespace CylinderGroup

def fields (cg : CylinderGroup) (e : Endian) : List Run :=
  [e.u32Run OFF_MAGIC CG_MAGIC, e.u32Run OFF_CGX cg.cgx, e.u32Run OFF_NDBLK cg.ndblk,
    e.u32Run OFF_IUSEDOFF cg.iusedoff, e.u32Run OFF_FREEOFF cg.freeoff,
    e.u32Run OFF_CLUSTEROFF cg.clusteroff, e.i32Run OFF_NIBLK cg.niblk,
    e.u32Run OFF_INITEDIBLK cg.initediblk]

/-- `data` with the fields of the header written over it. -/
def encode (cg : CylinderGroup) (e : Endian) (data : Bytes) : Bytes := data.writeAll (cg.fields e)

theorem fields_span (cg : CylinderGroup) (e : Endian) : (cg.fields e).map Run.span =
    [(4, 4), (12, 4), (20, 4), (92, 4), (96, 4), (108, 4), (116, 4), (120, 4)] := by
  simp only [fields, List.map_cons, List.map_nil, Endian.u32Run_span, Endian.i32Run_span]
  rfl

theorem fields_apart (cg : CylinderGroup) (e : Endian) : (cg.fields e).Pairwise Run.Apart := by
  rw [Bytes.pairwise_apart_iff, fields_span]
  decide

theorem fields_inside {cg : CylinderGroup} {e : Endian} {r : Run} (hr : r ∈ cg.fields e) :
    r.1 + r.2.length ≤ CG_MIN_LEN := by
  have hmem : r.span ∈ (cg.fields e).map Run.span := List.mem_map_of_mem hr
  have hall : ∀ s ∈ (cg.fields e).map Run.span, s.1 + s.2 ≤ CG_MIN_LEN := by
    rw [fields_span]
    decide
  exact hall _ hmem

theorem encode_len (cg : CylinderGroup) (e : Endian) (data : Bytes) :
    (cg.encode e data).len = data.len := Bytes.writeAll_len data _

variable {data : Bytes} {e : Endian} {cg : CylinderGroup}

/-- A buffer is accepted as a header exactly when it is long enough and holds its fields. -/
theorem parse_eq_ok_iff_fields :
    parse data e = .ok cg ↔ CG_MIN_LEN ≤ data.len ∧ ∀ r ∈ cg.fields e, HasRun data r := by
  rcases Nat.lt_or_ge data.len CG_MIN_LEN with hlen | hlen
  · rw [parse, if_pos hlen]
    exact iff_of_false nofun fun h => Nat.not_le.mpr hlen h.1
  have hin {off : ℕ} (h : off + 4 ≤ CG_MIN_LEN) : off + 4 ≤ data.len := h.trans hlen
  rw [parse, if_neg (Nat.not_lt.mpr hlen), and_iff_right hlen]
  simp only [fields, List.forall_mem_cons, List.not_mem_nil, false_imp_iff, implies_true, and_true]
  rw [hasRun_u32Run (hin (by decide)), hasRun_u32Run (hin (by decide)),
    hasRun_u32Run (hin (by decide)), hasRun_u32Run (hin (by decide)),
    hasRun_u32Run (hin (by decide)), hasRun_u32Run (hin (by decide)),
    hasRun_i32Run (hin (by decide)), hasRun_u32Run (hin (by decide))]
  by_cases hmagic : e.u32 data OFF_MAGIC = CG_MAGIC
  · rw [if_neg (not_not_intro hmagic), and_iff_right hmagic]
    obtain ⟨cgx, ndblk, niblk, initediblk, iusedoff, freeoff, clusteroff⟩ := cg
    simp only [Except.ok.injEq, CylinderGroup.mk.injEq]
    tauto
  · rw [if_pos hmagic]
    exact iff_of_false nofun fun h => hmagic h.1

/-- Only headers are fixed by encoding, each in its own way. -/
theorem parse_eq_ok_iff_encode (hlen : CG_MIN_LEN ≤ data.len) :
    parse data e = .ok cg ↔ cg.encode e data = data := by
  rw [parse_eq_ok_iff_fields, and_iff_right hlen]
  refine ⟨Bytes.writeAll_eq_self, fun h r hr => ?_⟩
  rw [← h]
  exact Bytes.writeAll_hasRun (cg.fields_apart e) hr ((fields_inside hr).trans hlen)

/-- No four bytes are the magic in both orders. -/
theorem magic_other {off : ℕ} (h : e.u32 data off = CG_MAGIC) :
    e.other.u32 data off ≠ CG_MAGIC := by
  cases e with
  | little => exact beU32_ne_of_leU32_eq h
  | big => exact fun hle => beU32_ne_of_leU32_eq hle h

/-- The header format: a header written over any buffer long enough is parsed back in its byte order,
and rejected for its magic in the other; and every accepted buffer is the encoding, over itself, of the
header that it is parsed to. -/
theorem header_roundTrip :
    (∀ (cg : CylinderGroup) (e : Endian) (data : Bytes), CG_MIN_LEN ≤ data.len →
      parse (cg.encode e data) e = .ok cg ∧
        ∃ found, parse (cg.encode e data) e.other = .error (.badCgMagic found e.other)) ∧
    (∀ (data : Bytes) (e : Endian) (cg : CylinderGroup), parse data e = .ok cg →
      CG_MIN_LEN ≤ data.len ∧ cg.encode e data = data) := by
  constructor
  · intro cg e data hlen
    have hlen' : CG_MIN_LEN ≤ (cg.encode e data).len := by rwa [encode_len]
    have hfields : ∀ r ∈ cg.fields e, HasRun (cg.encode e data) r := fun r hr =>
      Bytes.writeAll_hasRun (cg.fields_apart e) hr ((fields_inside hr).trans hlen)
    refine ⟨parse_eq_ok_iff_fields.mpr ⟨hlen', hfields⟩,
      _, (parse_eq_badCgMagic_iff hlen').mpr ⟨?_, rfl⟩⟩
    exact magic_other ((hasRun_u32Run (((by decide : OFF_MAGIC + 4 ≤ CG_MIN_LEN)).trans hlen')
      CG_MAGIC).mp (hfields _ List.mem_cons_self))
  · intro data e cg h
    have hlen := (parse_eq_ok_iff_fields.mp h).1
    exact ⟨hlen, (parse_eq_ok_iff_encode hlen).mp h⟩

end CylinderGroup

/-- Encoded over a buffer of other bytes. -/
theorem header_roundTrip_bytes :
    CylinderGroup.parse (CylinderGroup.encode ⟨1, 256, -8, 128, 168, 184, 200⟩ .big
      (Bytes.tabulate 300 (by decide) fun i => UInt8.ofNat i)) .big =
        .ok ⟨1, 256, -8, 128, 168, 184, 200⟩ :=
  (CylinderGroup.header_roundTrip.1 _ _ _ (by decide)).1

end UfsForensic
