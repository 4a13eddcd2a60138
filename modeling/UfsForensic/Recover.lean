import UfsForensic.Audit
import UfsForensic.Lib.Utf8Lossy

/-!
# Deleted-file and deleted-entry recovery

Two residues are swept: the slots with `d_ino = 0` of every directory reachable from the root, and
the inodes that are free in their group's bitmap yet still describe a regular file with content.
SHA-256 is a parameter, any function of the bytes it digests.
-/

namespace UfsForensic

inductive RecoveredItem
  | deletedFile (name : Option String) (inode size : ℕ) (content : Bytes) (contentSha256 : String)
  | deletedDirent (name : String) (inode : ℕ)
  deriving DecidableEq

/-- Decode a residual entry name, replacing invalid UTF-8 lossily. -/
def decodeName (name : List UInt8) : String := String.ofList (Utf8.decodeLossy name)

/-- The inner loop of `collectDeletedDirents` over the entries of one directory: the state is the
stack of directories to visit, its top first, and the recovered names. -/
def collectEntries : List DirEntry → List ℕ → List (String × ℕ) → List ℕ × List (String × ℕ)
  | [], queue, deleted => (queue, deleted)
  | e :: es, queue, deleted =>
    if e.deleted then
      if e.name ≠ [] ∧ e.name ≠ DOT ∧ e.name ≠ DOTDOT then
        collectEntries es queue (deleted ++ [(decodeName e.name, e.ino)])
      else collectEntries es queue deleted
    else if isDirEntry e ∧ e.name ≠ DOT ∧ e.name ≠ DOTDOT then
      collectEntries es (e.ino :: queue) deleted
    else collectEntries es queue deleted

/-- The outer loop of `collectDeletedDirents`. -/
def collectLoop (partition : Bytes) (sb : Superblock) :
    ℕ → List ℕ → List ℕ → List (String × ℕ) → List (String × ℕ)
  | _, _, [], deleted => deleted
  -- the budget is spent with directories left to visit
  | 0, _, _ :: _, deleted => deleted
  | budget + 1, visited, dirIno :: queue, deleted =>
    if dirIno ∈ visited then collectLoop partition sb budget visited queue deleted
    else
      match listDirAll partition sb dirIno with
      | .error _ => collectLoop partition sb budget (visited ++ [dirIno]) queue deleted
      | .ok entries =>
        let (queue, deleted) := collectEntries entries queue deleted
        collectLoop partition sb budget (visited ++ [dirIno]) queue deleted

/-- The residual name and inode of every deleted slot in the directories reachable from root. -/
def collectDeletedDirents (partition : Bytes) (sb : Superblock) : List (String × ℕ) :=
  collectLoop partition sb WALK_BUDGET [] [UFS_ROOTINO] []

section Digest

variable (sha256 : Bytes → Vector UInt8 32)

def sha256Hex (data : Bytes) : String :=
  String.join ((sha256 data).toList.map fun b => hexPadded 2 b.toNat)

/-- The file carved from one free inode, when it still looks like a regular file. -/
def carveAt (partition : Bytes) (sb : Superblock) (deletedNames : List (String × ℕ))
    (ipg total : ℕ) (used : Bytes) (cg within : ℕ) : Option RecoveredItem :=
  let ino := satAdd (satMul cg ipg) within
  if ino < UFS_ROOTINO + 1 ∨ total ≤ ino then none
  else if bitmapBit used within then none
  else
    match readInode partition sb ino with
    | .error _ => none
    | .ok inode =>
      -- what is left must still look like a regular file with content
      if !inode.isRegular ∨ inode.size = 0 ∨ inode.firstBlock = 0 then none
      else
        match readFile partition sb ino with
        | .error _ => none
        | .ok content =>
          if content.len = 0 then none
          else
            let name := (deletedNames.find? fun d => d.2 == ino).map fun d => d.1
            some (.deletedFile name ino inode.size.toNat content (sha256Hex sha256 content))

def carveDeletedInodes (partition : Bytes) (sb : Superblock) (deletedNames : List (String × ℕ)) :
    List RecoveredItem :=
  if sb.ipg.toInt ≤ 0 then []
  else
    let ipg := i32AsU64 sb.ipg
    let ncg := sb.ncg.toNat
    sweep ncg ipg (cgInodeBitmap partition sb)
      (carveAt sha256 partition sb deletedNames ipg (satMul ipg ncg))

/-- `recoverDeleted` from the point where the superblock is known. -/
def recoverFrom (partition : Bytes) (sb : Superblock) : List RecoveredItem :=
  let deletedNames := collectDeletedDirents partition sb
  deletedNames.map (fun d => .deletedDirent d.1 d.2) ++
    carveDeletedInodes sha256 partition sb deletedNames

def recoverDeleted (partition : Bytes) : List RecoveredItem :=
  match parsePrimarySb partition with
  | .error _ => []
  | .ok sb => recoverFrom sha256 partition sb

end Digest
end UfsForensic
