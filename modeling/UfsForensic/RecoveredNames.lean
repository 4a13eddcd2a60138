import UfsForensic.AbsorbedEntry
import UfsForensic.RecoveryWalk

/-!
# Recovered names

A residual name can be any bytes, and what is recovered is a string. A string without U+FFFD says which
bytes the name was: it is recovered exactly as often as its bytes are the name of a free slot in the
tree.
-/

namespace UfsForensic

def utf8Bytes (name : String) : List UInt8 := name.toList.flatMap String.utf8EncodeChar

/-- A name that is decoded without loss is the bytes of what it is decoded to. -/
theorem decodeName_eq_iff {name : String} (hname : Utf8.REPLACEMENT ∉ name.toList)
    {bytes : List UInt8} : decodeName bytes = name ↔ bytes = utf8Bytes name := by
  unfold decodeName utf8Bytes
  constructor
  · rintro rfl
    rw [String.toList_ofList] at hname ⊢
    exact (Utf8.encode_decodeLossy hname).symm
  · rintro rfl
    rw [Utf8.decodeLossy_encode, String.ofList_toList]

theorem coe_count_eq {α : Type*} [DecidableEq α] (l : List α) (a : α) :
    (l : Multiset α).count a = l.countP fun x => x = a := by
  rw [Multiset.coe_count, List.count]
  exact List.countP_congr fun x _ => by simp

section Count

variable {p : Bytes} {sb : Superblock} {name : String} (hname : Utf8.REPLACEMENT ∉ name.toList)
  (hne : utf8Bytes name ≠ []) (hdot : utf8Bytes name ≠ DOT) (hdotdot : utf8Bytes name ≠ DOTDOT)
include hname hne hdot hdotdot

theorem count_freeNames (d : ℕ) : (freeNames p sb d : Multiset (String × ℕ)).count (name, 0) =
    (entriesOf p sb d).countP fun e => e.ino = 0 ∧ e.name = utf8Bytes name := by
  rw [coe_count_eq, freeNames, List.countP_map, List.countP_filter]
  refine List.countP_congr fun e _ => ?_
  simp only [Function.comp_apply, Prod.mk.injEq, Bool.and_eq_true, decide_eq_true_eq,
    decodeName_eq_iff hname]
  constructor
  · rintro ⟨⟨hbytes, hino⟩, -⟩
    exact ⟨hino, hbytes⟩
  · rintro ⟨hino, hbytes⟩
    rw [← hbytes] at hne hdot hdotdot
    exact ⟨⟨hbytes, hino⟩, hino, hne, hdot, hdotdot⟩

/-- A name is recovered as often as there are free slots with its bytes. -/
theorem count_recoverDeleted_name (hparses : parsePrimarySb p = .ok sb)
    (hbudget : 1 + ∑ d ∈ treeDirs p sb, (subdirs p sb d).length ≤ WALK_BUDGET)
    (sha256 : Bytes → Vector UInt8 32) :
    (recoverDeleted sha256 p).count (.deletedDirent name 0) =
      ∑ d ∈ treeDirs p sb,
        (entriesOf p sb d).countP fun e => e.ino = 0 ∧ e.name = utf8Bytes name := by
  have hsb := wellFormed_of_parsePrimarySb hparses
  have hcarve : (carveDeletedInodes sha256 p sb (collectDeletedDirents p sb)).count
      (.deletedDirent name 0) = 0 := by
    refine List.count_eq_zero.mpr fun hitem => ?_
    obtain ⟨n, -, -, -, inode, content, -, hcarved⟩ := (mem_carveDeletedInodes_iff hsb).mp hitem
    cases hcarved
  rw [recoverDeleted, hparses]
  dsimp only
  rw [recoverFrom, List.count_append, hcarve, Nat.add_zero]
  calc ((collectDeletedDirents p sb).map fun d => RecoveredItem.deletedDirent d.1 d.2).count
        (.deletedDirent name 0)
      = (collectDeletedDirents p sb : Multiset (String × ℕ)).count (name, 0) := by
        rw [coe_count_eq, List.count, List.countP_map]
        exact List.countP_congr fun d _ => by simp [Prod.ext_iff]
    _ = ∑ d ∈ treeDirs p sb, (freeNames p sb d : Multiset (String × ℕ)).count (name, 0) := by
        rw [(collectDeletedDirents_complete hbudget).2.2, Multiset.count_sum']
    _ = _ := Finset.sum_congr rfl fun d _ => count_freeNames hname hne hdot hdotdot d

end Count

theorem Crafted.sharedDir_parses : parsePrimarySb sharedDir = .ok tinySb :=
  parsePrimarySb_volume (by decide)

theorem count_recoverDeleted_name_sharedDir :
    (recoverDeleted Crafted.helloDigest Crafted.sharedDir).count (.deletedDirent "x" 0) =
      ∑ d ∈ treeDirs Crafted.sharedDir Crafted.tinySb,
        (entriesOf Crafted.sharedDir Crafted.tinySb d).countP fun e =>
          e.ino = 0 ∧ e.name = utf8Bytes "x" :=
  count_recoverDeleted_name (by decide) (by decide) (by decide) (by decide)
    Crafted.sharedDir_parses Crafted.budget_sharedDir Crafted.helloDigest

end UfsForensic
