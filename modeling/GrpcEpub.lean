import GrpcEpub.Text
import GrpcEpub.Lib.Utf8
import GrpcEpub.Lib.Effect
import GrpcEpub.Lib.Interleave
import GrpcEpub.Href
import GrpcEpub.Limits
import GrpcEpub.Xml
import GrpcEpub.Opf
import GrpcEpub.Encryption
import GrpcEpub.Nav
import GrpcEpub.Smil
import GrpcEpub.Proto
import GrpcEpub.Status
import GrpcEpub.Archive
import GrpcEpub.Extract
import GrpcEpub.Parse
import GrpcEpub.Script
import GrpcEpub.Plan
import GrpcEpub.Ledger
import GrpcEpub.Trace
import GrpcEpub.Run
import GrpcEpub.Lookup
import GrpcEpub.Contract
import GrpcEpub.Accounts
import GrpcEpub.Directory
import GrpcEpub.Sample
import GrpcEpub.Order
import GrpcEpub.Files
import GrpcEpub.Paths
import GrpcEpub.Safety
import GrpcEpub.Lib.Cut
import GrpcEpub.Clients
import GrpcEpub.Lib.Machine
import GrpcEpub.Exchange
import GrpcEpub.Endings
import GrpcEpub.Lib.Permits
import GrpcEpub.Uploads
import GrpcEpub.UploadBudget
import GrpcEpub.Forest
import GrpcEpub.Policy
import GrpcEpub.Release
import GrpcEpub.Receive
import GrpcEpub.Lib.Calendar
import GrpcEpub.Datetime
import GrpcEpub.Dates
import GrpcEpub.Lib.Follows
import GrpcEpub.Lib.Cache
import GrpcEpub.Schedule
import GrpcEpub.Completion
import GrpcEpub.Obfuscated
import GrpcEpub.Lib.Arena
import GrpcEpub.Document
import GrpcEpub.Fold
import GrpcEpub.Fragment
import GrpcEpub.Sketch
import GrpcEpub.Spending
import GrpcEpub.Additive
import GrpcEpub.Markup
import GrpcEpub.Outline
import GrpcEpub.Written
import GrpcEpub.Escapes
import GrpcEpub.Lib.Walk
import GrpcEpub.Normal
import GrpcEpub.Addresses
import GrpcEpub.Targets
import GrpcEpub.Verbatim
import GrpcEpub.Truncated
import GrpcEpub.Readings
import GrpcEpub.Instants
import GrpcEpub.Grammar
import GrpcEpub.Lib.Shuffle
import GrpcEpub.Packing
import GrpcEpub.Reordered
import GrpcEpub.Repacked
import GrpcEpub.AnyOrder
import GrpcEpub.Branches
import GrpcEpub.Outlines
import GrpcEpub.Titles
import GrpcEpub.Navs
import GrpcEpub.Strays
import GrpcEpub.Caps
import GrpcEpub.BrokenOff
import GrpcEpub.Sections
import GrpcEpub.Elements
import GrpcEpub.TopLevel
import GrpcEpub.CutOff
import GrpcEpub.Typed
import GrpcEpub.Refining
import GrpcEpub.Lib.Trail
import GrpcEpub.Fallbacks
import GrpcEpub.Absent
import GrpcEpub.Numbers
import GrpcEpub.Clocks
import GrpcEpub.Cues
import GrpcEpub.Inflations
import GrpcEpub.Charges
import GrpcEpub.Lib.Last
import GrpcEpub.Pointing
import GrpcEpub.Narrations
import GrpcEpub.Lib.Lineage
import GrpcEpub.Heights
import GrpcEpub.Ceilings
import GrpcEpub.Splittings
import GrpcEpub.MediaTypes
import GrpcEpub.Integrity
import GrpcEpub.Tail
import GrpcEpub.Retaken
import GrpcEpub.Signposts
import GrpcEpub.Counters
import GrpcEpub.Server
import GrpcEpub.Shares
import GrpcEpub.Alone
import GrpcEpub.Deadlines
import GrpcEpub.Tallies
import GrpcEpub.Draining
import GrpcEpub.Headroom
import GrpcEpub.Lib.Grain
import GrpcEpub.Asides
import GrpcEpub.Refolded
import GrpcEpub.Choices
