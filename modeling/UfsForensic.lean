import UfsForensic.Lib.Saturating
import UfsForensic.Lib.Bits
import UfsForensic.Lib.Bytes
import UfsForensic.Lib.Fields
import UfsForensic.Lib.IndexTree
import UfsForensic.Lib.Sweep
import UfsForensic.Lib.Utf8Lossy
import UfsForensic.Lib.Worklist
import UfsForensic.Lib.Checked
import UfsForensic.Lib.NodeTree
import UfsForensic.Endian
import UfsForensic.Error
import UfsForensic.Superblock
import UfsForensic.CylinderGroup
import UfsForensic.Inode
import UfsForensic.Dir
import UfsForensic.File
import UfsForensic.Vfs
import UfsForensic.Audit
import UfsForensic.Recover
import UfsForensic.Crafted
import UfsForensic.BlockMap
import UfsForensic.BlockReach
import UfsForensic.FieldCodec
import UfsForensic.SuperblockCodec
import UfsForensic.DinodeCodec
import UfsForensic.BlockLayout
import UfsForensic.PrimarySuperblock
import UfsForensic.MountOffset
import UfsForensic.GroupHeader
import UfsForensic.GeometryFindings
import UfsForensic.PathResolution
import UfsForensic.Volume
import UfsForensic.AdapterReads
import UfsForensic.MountedVolume
import UfsForensic.Footprint
import UfsForensic.ExactAddresses
import UfsForensic.InlineSymlinks
import UfsForensic.SymlinkTarget
import UfsForensic.Extents
import UfsForensic.DirContent
import UfsForensic.Truncation
import UfsForensic.Carve
import UfsForensic.Deletion
import UfsForensic.OrphanedInodes
import UfsForensic.GroupCodec
import UfsForensic.SweepFindings
import UfsForensic.Findings
import UfsForensic.ReachableInodes
import UfsForensic.DirWalk
import UfsForensic.DirRecords
import UfsForensic.DirBlocks
import UfsForensic.DirSpans
import UfsForensic.DeletedNames
import UfsForensic.RecoveryWalk
import UfsForensic.DeletionRuns
import UfsForensic.AbsorbedEntry
import UfsForensic.TruncatedRecovery
import UfsForensic.RecoveredNames
import UfsForensic.AllocatedVolume
import UfsForensic.FreedRecords
import UfsForensic.FileRemoval
import UfsForensic.CheckedReader
import UfsForensic.CheckedAudit
import UfsForensic.CheckedAdapter
import UfsForensic.SameVolume
import UfsForensic.TamperedGroups
