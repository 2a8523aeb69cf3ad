import Cdfs.Proofs.EntryAt
import Cdfs.Proofs.Layout
import Cdfs.Proofs.Iteration
import Cdfs.Proofs.Lookup
import Cdfs.Proofs.ChildLink
import Cdfs.Proofs.Continuation
import Cdfs.DirectoryEntry.ISOFile
import Cdfs.Proofs.FileReader
import Cdfs.Proofs.FileContents
import Cdfs.Proofs.CacheCoherence
import Cdfs.Rust.Path
import Cdfs.Proofs.SymlinkTarget
import Cdfs.Proofs.SuspTotality
import Cdfs.Proofs.SuspRoundTrip
import Cdfs.Proofs.AlternateName
import Cdfs.Proofs.VolumeScan
import Cdfs.Proofs.ReadFailure
import Cdfs.Fuse.ISOFuse
import Cdfs.Proofs.LookupReferences
import Cdfs.Proofs.InodeBinding
import Cdfs.Proofs.PagedListing
import Cdfs.Proofs.FileHandles
import Cdfs.Proofs.Answered
import Cdfs.Proofs.RecordParse
import Cdfs.Proofs.RecordRoundTrip
import Cdfs.Proofs.DescriptorLayout
import Cdfs.Proofs.TimestampForms
import Cdfs.Proofs.EntryName
import Cdfs.Proofs.EntryTotality
import Cdfs.Proofs.RootSelection
import Cdfs.Proofs.SameListing
import Cdfs.Proofs.InodeStability
import Cdfs.Proofs.InodeTable
import Cdfs.Proofs.TimestampMerge
import Cdfs.Proofs.RecordedDates
import Cdfs.Proofs.DescriptorTotality
import Cdfs.Proofs.Extensions
import Cdfs.Proofs.ExtentBound
import Cdfs.Proofs.PathLookup
import Cdfs.Proofs.SeekExact
import Cdfs.Proofs.DotNames
import Cdfs.Proofs.JolietNames
import Cdfs.Proofs.BlockCounts
import Cdfs.Proofs.StepBound
import Cdfs.Proofs.LinkWhole
import Cdfs.Proofs.ExtendedAttributes
import Cdfs.Proofs.SessionAgreement
import Cdfs.Proofs.TreePrinting
import Cdfs.Proofs.ReadBack
import Cdfs.Proofs.TreeSessions
import Cdfs.Proofs.BlockTraffic
import Cdfs.Proofs.RockRidgeDisc
