import UfsForensic.SameVolume

/-!
# Tampered groups

The auditor checks the groups by the magics of their headers and by their backup superblocks. However
these are written over, it finds what it compares there and nothing else. Both sweeps skip a group
whose magic is gone: its orphans are not reported, and its deleted files are not recovered.
-/

namespace UfsForensic

open Bytes (Run Stores)

/-- The runs that the files, the names and the allocation map of the volume are read from. -/
def Volume.keptRuns (V : Volume) : List Run :=
  V.layout.runs ++ ((List.range V.layout.sb.ncg.toNat).flatMap V.mapRuns ++ V.blankRuns)

/-- Edits anywhere else leave them, as long as the primary superblock is still the one that is
found. -/
theorem Volume.Kept.writeAll {V : Volume} {p : Bytes} (h : V.Kept p) {edits : List Run}
    (hapart : ∀ e ∈ edits, ∀ r ∈ V.keptRuns, Run.Apart e r)
    (hparses : parsePrimarySb (p.writeAll edits) = .ok V.layout.sb) : V.Kept (p.writeAll edits) := by
  have hlen : (p.writeAll edits).len = p.len := Bytes.writeAll_len p edits
  have hstores {r : Run} (hr : r ∈ V.keptRuns) (hs : Stores p r) :
      Stores (p.writeAll edits) r := hs.writeAll fun e he => hapart e he r hr
  refine ⟨h.valid, ⟨h.layout.valid, fun r hr => ?_, fun x hx => ?_, fun x hx => ?_⟩, hparses,
    fun c hc r hr => ?_, fun c hc => ?_, fun c hone hc => ?_, fun r hr => ?_⟩
  · exact hstores (List.mem_append_left _ hr) (h.layout.stores r hr)
  · rw [hlen]
    exact h.layout.located x hx
  · rw [hlen]
    exact h.layout.fits x hx
  · exact hstores (List.mem_append_right _ (List.mem_append_left _
      (List.mem_flatMap.mpr ⟨c, List.mem_range.mpr hc, hr⟩))) (h.map c hc r hr)
  · rw [hlen]
    exact h.headerRoom c hc
  · rw [hlen]
    exact h.backupRoom c hone hc
  · exact hstores (List.mem_append_right _ (List.mem_append_right _ hr)) (h.blank r hr)

theorem Volume.Same.refl (V : Volume) : V.Same V where
  items := List.forall₂_same.mpr fun _ _ => ⟨rfl, rfl, rfl, rfl⟩
  used _ _ := rfl

theorem parsePrimarySb_writeAll {p : Bytes} {edits : List Run}
    (hclear : ∀ e ∈ edits, ∀ i ∈ primaryRegions, i < e.1 ∨ e.1 + e.2.length ≤ i) :
    parsePrimarySb (p.writeAll edits) = parsePrimarySb p := by
  refine parsePrimarySb_congr ⟨Bytes.writeAll_len p edits, fun i hi => ?_⟩
  refine Bytes.writeAll_byte_of_not_mem fun e he => ?_
  have := hclear e he i hi
  omega

/-- What is about an inode is about one of a group whose header has its magic. -/
def InIntactGroup (p : Bytes) (sb : Superblock) (ino : Option ℕ) : Bool :=
  ino.all fun n => decide (MagicIntact p sb (n / sb.inodesPerGroup))

section Sweeps

variable {V : Volume} {p q : Bytes} (hp : V.Held p) (hq : V.Kept q)
include hp hq

/-- The orphans of the other groups are found as before. -/
theorem checkOrphanedInodes_of_kept : checkOrphanedInodes q V.layout.sb =
    (checkOrphanedInodes p V.layout.sb).filter fun a =>
      InIntactGroup q V.layout.sb a.orphanIno := by
  refine eq_of_increasing hq.orphans_increasing (hp.orphans_increasing.filter _) fun a => ?_
  rw [List.mem_filter, hq.mem_checkOrphanedInodes_iff, hp.mem_checkOrphanedInodes_iff]
  constructor
  · rintro ⟨x, hx, h3, hmagic, hused, hlink, hnot, rfl⟩
    exact ⟨⟨x, hx, h3, hused, hlink, hnot, rfl⟩, decide_eq_true hmagic⟩
  · rintro ⟨⟨x, hx, h3, hused, hlink, hnot, rfl⟩, hmagic⟩
    exact ⟨x, hx, h3, of_decide_eq_true hmagic, hused, hlink, hnot, rfl⟩

theorem carveDeletedInodes_of_kept (sha256 : Bytes → Vector UInt8 32) :
    carveDeletedInodes sha256 q V.layout.sb (collectDeletedDirents q V.layout.sb) =
      (carveDeletedInodes sha256 p V.layout.sb (collectDeletedDirents p V.layout.sb)).filter
        fun item => InIntactGroup q V.layout.sb item.fileIno := by
  refine eq_of_increasing (hq.carved_increasing sha256) ((hp.carved_increasing sha256).filter _)
    fun item => ?_
  rw [List.mem_filter, hq.mem_carve_iff, hp.mem_carve_iff]
  constructor
  · rintro ⟨x, hx, hmagic, c, hbody, h3, hused, hlen, hfirst, rfl⟩
    exact ⟨⟨x, hx, hp.magicIntact_item hx, c, hbody, h3, hused, hlen, hfirst, rfl⟩,
      decide_eq_true hmagic⟩
  · rintro ⟨⟨x, hx, -, c, hbody, h3, hused, hlen, hfirst, rfl⟩, hmagic⟩
    exact ⟨x, hx, of_decide_eq_true hmagic, c, hbody, h3, hused, hlen, hfirst, rfl⟩

end Sweeps

/-- Edits that spare the files, the names and the allocation map: the findings about the groups are
those that there are now, and both sweeps find what they found before in the groups whose header has its
magic still, in the same order, and nothing else. -/
theorem auditImage_and_recoverDeleted_writeAll {V : Volume} {p : Bytes} (hp : V.Held p)
    {edits : List Run} (hapart : ∀ e ∈ edits, ∀ r ∈ V.keptRuns, Run.Apart e r)
    (hparses : parsePrimarySb (p.writeAll edits) = .ok V.layout.sb)
    (sha256 : Bytes → Vector UInt8 32) :
    (∃ found, auditImage (p.writeAll edits) = found ++ (auditImage p).filter (fun a =>
        InIntactGroup (p.writeAll edits) V.layout.sb a.orphanIno) ∧
      ∀ a, a ∈ found ↔ GroupFinding (p.writeAll edits) V.layout.sb a) ∧
    recoverDeleted sha256 (p.writeAll edits) = (recoverDeleted sha256 p).filter fun item =>
      InIntactGroup (p.writeAll edits) V.layout.sb item.fileIno := by
  have hq := hp.toKept.writeAll hapart hparses
  refine ⟨⟨_, ?_, fun a => mem_groupFindings_iff hq.wellFormed⟩, ?_⟩
  · rw [hq.auditImage_eq, hp.auditImage_eq, checkOrphanedInodes_of_kept hp hq]
  · have hnames : ((collectDeletedDirents p V.layout.sb).map fun d =>
        RecoveredItem.deletedDirent d.1 d.2).filter (fun item =>
          InIntactGroup (p.writeAll edits) V.layout.sb item.fileIno) =
        (collectDeletedDirents p V.layout.sb).map fun d => .deletedDirent d.1 d.2 := by
      refine List.filter_eq_self.mpr fun item hitem => ?_
      obtain ⟨d, -, rfl⟩ := List.mem_map.mp hitem
      rfl
    rw [recoverDeleted, hq.parses, recoverDeleted, hp.parses]
    dsimp only
    rw [recoverFrom, recoverFrom, carveDeletedInodes_of_kept hp hq, List.filter_append, hnames,
      collectDeletedDirents_of_same hq hp.toKept (Volume.Same.refl V)]

namespace Crafted

/-- The magic of the only group, wiped. -/
def wipedMagic : Run := (shelfSb.headerOff 0 + CylinderGroup.OFF_MAGIC, [0, 0, 0, 0])

theorem wipedMagic_apart : ∀ e ∈ [wipedMagic], ∀ r ∈ soldShelf.keptRuns, Run.Apart e r := by
  decide +kernel

theorem wipedMagic_clear :
    ∀ e ∈ [wipedMagic], ∀ i ∈ primaryRegions, i < e.1 ∨ e.1 + e.2.length ≤ i := by
  have hoffset : wipedMagic.1 = 10244 := by decide +kernel
  intro e he i hi
  obtain rfl := List.mem_singleton.mp he
  have hlen : wipedMagic.2.length = 4 := rfl
  simp only [primaryRegions, SBLOCK_UFS1, SBLOCK_UFS2, SB_MIN_LEN, Set.mem_union, Set.mem_Ico] at hi
  omega

theorem wiped_parses :
    parsePrimarySb ((soldShelf.write wornOut).writeAll [wipedMagic]) = .ok shelfSb :=
  (parsePrimarySb_writeAll wipedMagic_clear).trans soldShelf_held.parses

end Crafted

/-- The wiped magic is reported, and only the names are recovered still. -/
theorem auditImage_and_recoverDeleted_writeAll_wiped :
    Anomaly.new (.cgMagicInvalid 0 0 (Crafted.shelfSb.headerOff 0)) ∈
        auditImage ((Crafted.soldShelf.write Crafted.wornOut).writeAll [Crafted.wipedMagic]) ∧
      recoverDeleted Crafted.helloDigest
          ((Crafted.soldShelf.write Crafted.wornOut).writeAll [Crafted.wipedMagic]) =
        (recoverDeleted Crafted.helloDigest (Crafted.soldShelf.write Crafted.wornOut)).filter
          fun item => InIntactGroup
            ((Crafted.soldShelf.write Crafted.wornOut).writeAll [Crafted.wipedMagic])
            Crafted.shelfSb item.fileIno := by
  obtain ⟨⟨found, haudit, hfound⟩, hrecover⟩ := auditImage_and_recoverDeleted_writeAll
    Crafted.soldShelf_held Crafted.wipedMagic_apart Crafted.wiped_parses Crafted.helloDigest
  refine ⟨?_, hrecover⟩
  rw [haudit]
  refine List.mem_append_left _ ((hfound _).mpr ?_)
  have hmagic : leU32 ((Crafted.soldShelf.write Crafted.wornOut).writeAll [Crafted.wipedMagic])
      (Crafted.shelfSb.headerOff 0 + 4) = 0 := by decide +kernel
  have hfinding := GroupFinding.header
    (p := (Crafted.soldShelf.write Crafted.wornOut).writeAll [Crafted.wipedMagic])
    (c := 0) (show 0 < Crafted.shelfSb.fpg.toInt by decide +kernel) (by decide +kernel)
    (by decide +kernel) (by decide +kernel) (by rw [hmagic]; decide) (by decide +kernel)
  rwa [hmagic] at hfinding

end UfsForensic
