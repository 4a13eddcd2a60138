import UfsForensic.Footprint
import UfsForensic.Recover

/-!
# What the sweep carves

The sweep over the free inodes in exact terms: which inodes it carves, what it carves for each, and
that it carves none twice.
-/

namespace UfsForensic

variable {sha256 : Bytes → Vector UInt8 32} {partition : Bytes} {sb : Superblock}
  {deletedNames : List (String × ℕ)}

/-- The dinode of `ino` describes a regular file with content that can be read. -/
structure Intact (partition : Bytes) (sb : Superblock) (ino : ℕ) (inode : Inode)
    (content : Bytes) : Prop where
  dinode : readInode partition sb ino = .ok inode
  regular : inode.isRegular = true
  size_ne : inode.size ≠ 0
  direct_ne : inode.firstBlock ≠ 0
  content_eq : readFile partition sb ino = .ok content

theorem Intact.len_ne {ino : ℕ} {inode : Inode} {content : Bytes}
    (h : Intact partition sb ino inode content) : content.len ≠ 0 := by
  obtain ⟨inode', hinode, hread⟩ := readFile_eq_ok_iff.mp h.content_eq
  rw [h.dinode] at hinode
  obtain rfl := Except.ok.inj hinode
  rw [(readInodeFile_len hread).2]
  intro h0
  exact h.size_ne (UInt64.toNat_inj.mp h0)

/-- The item carved for `ino`, with the first name that a deleted slot pairs with its number. -/
def carvedItem (sha256 : Bytes → Vector UInt8 32) (deletedNames : List (String × ℕ)) (ino : ℕ)
    (inode : Inode) (content : Bytes) : RecoveredItem :=
  .deletedFile ((deletedNames.find? fun d => d.2 == ino).map fun d => d.1) ino inode.size.toNat
    content (sha256Hex sha256 content)

theorem carveAt_eq_some_iff {ipg total cg within : ℕ} {used : Bytes} {item : RecoveredItem} {ino : ℕ}
    (hino : satAdd (satMul cg ipg) within = ino) :
    carveAt sha256 partition sb deletedNames ipg total used cg within = some item ↔
      3 ≤ ino ∧ ino < total ∧ bitmapBit used within = false ∧ ∃ inode content,
        Intact partition sb ino inode content ∧
          item = carvedItem sha256 deletedNames ino inode content := by
  unfold carveAt
  rw [hino]
  dsimp only
  unfold UFS_ROOTINO
  by_cases h1 : ino < 2 + 1 ∨ total ≤ ino
  · rw [if_pos h1]
    exact iff_of_false (by simp) fun h => absurd h1 (by omega)
  rw [if_neg h1]
  by_cases h2 : bitmapBit used within = true
  · rw [if_pos h2]
    exact iff_of_false (by simp) fun h => by simp [h2] at h
  rw [if_neg h2]
  have hleft : 3 ≤ ino ∧ ino < total ∧ bitmapBit used within = false :=
    ⟨by omega, by omega, by simpa using h2⟩
  cases hread : readInode partition sb ino with
  | error e =>
    refine iff_of_false (by simp) ?_
    rintro ⟨-, -, -, inode, content, hin, -⟩
    simp [hin.dinode] at hread
  | ok inode =>
    dsimp only
    by_cases h3 : (!inode.isRegular) = true ∨ inode.size = 0 ∨ inode.firstBlock = 0
    · rw [if_pos h3]
      refine iff_of_false (by simp) ?_
      rintro ⟨-, -, -, inode', content, hin, -⟩
      rw [hin.dinode] at hread
      obtain rfl := Except.ok.inj hread
      rcases h3 with h3 | h3 | h3
      · simp [hin.regular] at h3
      · exact absurd h3 hin.size_ne
      · exact absurd h3 hin.direct_ne
    rw [if_neg h3]
    push Not at h3
    cases hfile : readFile partition sb ino with
    | error e =>
      refine iff_of_false (by simp) ?_
      rintro ⟨-, -, -, _, _, hin, -⟩
      simp [hin.content_eq] at hfile
    | ok content =>
      have hin : Intact partition sb ino inode content :=
        ⟨hread, by simpa using h3.1, h3.2.1, h3.2.2, hfile⟩
      dsimp only
      rw [if_neg hin.len_ne]
      constructor
      · intro h
        exact ⟨hleft.1, hleft.2.1, hleft.2.2, inode, content, hin, (Option.some.inj h).symm⟩
      · rintro ⟨_, _, _, inode', content', hin', rfl⟩
        obtain rfl := Except.ok.inj (hin.dinode.symm.trans hin'.dinode)
        obtain rfl := Except.ok.inj (hin.content_eq.symm.trans hin'.content_eq)
        rfl

/-- The carved files are those of the free, intact inodes. -/
theorem mem_carveDeletedInodes_iff (hsb : sb.WellFormed) {item : RecoveredItem} :
    item ∈ carveDeletedInodes sha256 partition sb deletedNames ↔
      ∃ n, 3 ≤ n ∧ n < sb.inodesPerGroup * sb.ncg.toNat ∧
        (∃ used, cgInodeBitmap partition sb (n / sb.inodesPerGroup) = some used ∧
          bitmapBit used (n % sb.inodesPerGroup) = false) ∧
        ∃ inode content, Intact partition sb n inode content ∧
          item = carvedItem sha256 deletedNames n inode content := by
  unfold carveDeletedInodes
  by_cases hipg : sb.ipg.toInt ≤ 0
  · rw [if_pos hipg]
    have h0 : sb.inodesPerGroup = 0 := by
      unfold Superblock.inodesPerGroup
      omega
    constructor
    · intro h
      exact absurd h List.not_mem_nil
    · rintro ⟨n, -, hn, -⟩
      rw [h0, Nat.zero_mul] at hn
      exact absurd hn (Nat.not_lt_zero n)
  rw [if_neg hipg, i32AsU64_of_nonneg (by omega)]
  change item ∈ sweep sb.ncg.toNat sb.inodesPerGroup _ (carveAt sha256 partition sb deletedNames
    sb.inodesPerGroup (satMul sb.inodesPerGroup sb.ncg.toNat)) ↔ _
  have hmax := hsb.inodes_le
  rw [hsb.satMul_inodes, mem_sweep_iff_number]
  constructor
  · rintro ⟨n, hn, used, hused, hx⟩
    obtain ⟨h3, -, hbit, hfile⟩ :=
      (carveAt_eq_some_iff (satAdd_satMul_div_mod (by omega))).mp hx
    exact ⟨n, h3, hn, ⟨used, hused, hbit⟩, hfile⟩
  · rintro ⟨n, h3, hn, ⟨used, hused, hbit⟩, hfile⟩
    exact ⟨n, hn, used, hused,
      (carveAt_eq_some_iff (satAdd_satMul_div_mod (by omega))).mpr ⟨h3, hn, hbit, hfile⟩⟩

def RecoveredItem.ino : RecoveredItem → ℕ
  | deletedFile _ inode _ _ _ => inode
  | deletedDirent _ inode => inode

theorem carveDeletedInodes_pairwise (hsb : sb.WellFormed) :
    (carveDeletedInodes sha256 partition sb deletedNames).Pairwise fun x y => x.ino < y.ino := by
  unfold carveDeletedInodes
  by_cases hipg : sb.ipg.toInt ≤ 0
  · rw [if_pos hipg]
    exact List.Pairwise.nil
  rw [if_neg hipg, i32AsU64_of_nonneg (by omega)]
  refine sweep_pairwise RecoveredItem.ino fun used cg within item hcg hw hx => ?_
  have hexact := hsb.satAdd_satMul_cell hcg hw
  obtain ⟨-, -, -, inode, content, -, rfl⟩ := (carveAt_eq_some_iff hexact).mp hx
  rfl

end UfsForensic
