import DataCommons.Lib.Machine
import DataCommons.Lib.Tour
import DataCommons.Lib.Trail
import DataCommons.Lib.RingWindow
import DataCommons.Lib.OverwriteQueue
import DataCommons.Lib.ArrivalList
import DataCommons.Lib.Ledger
import DataCommons.Lib.Datagrams
import DataCommons.Lib.Commuting
import DataCommons.Lib.ShiftingWalk
import DataCommons.Lib.Assignments
import DataCommons.Lib.RelyGuarantee
import DataCommons.CBuffer.Model
import DataCommons.CBuffer.Refinement
import DataCommons.CBuffer.Dma
import DataCommons.CBuffer.Transfer
import DataCommons.CBuffer.Chunks
import DataCommons.CBuffer.Frames
import DataCommons.CBuffer.Accounting
import DataCommons.CBuffer.Occupancy
import DataCommons.CBuffer.Contiguous
import DataCommons.CBuffer.ZeroCopy
import DataCommons.CBuffer.Main
import DataCommons.CBuffer.Accesses
import DataCommons.CBuffer.Spsc
import DataCommons.Comms.Model
import DataCommons.Comms.Table
import DataCommons.Comms.Server
import DataCommons.Comms.Accepter
import DataCommons.Comms.Lifecycle
import DataCommons.Comms.Cids
import DataCommons.Comms.Listener
import DataCommons.Comms.Delivery
import DataCommons.Comms.Turns
import DataCommons.Comms.Shutdown
import DataCommons.Comms.Sections
import DataCommons.Comms.Places
import DataCommons.Comms.Broadcast
import DataCommons.Comms.Udp
import DataCommons.Comms.Datagrams
import DataCommons.Comms.Sends
import DataCommons.Comms.Ends
import DataCommons.Comms.Session
import DataCommons.Comms.Uplink
import DataCommons.Comms.Downlink
import DataCommons.Comms.Pass
import DataCommons.Comms.Errors
import DataCommons.Lib.CString
import DataCommons.Lib.Tokens
import DataCommons.Lib.Memory
import DataCommons.Lib.Lines
import DataCommons.Flags.Model
import DataCommons.Flags.Reading
import DataCommons.Flags.Parse
import DataCommons.Flags.Loop
import DataCommons.Flags.Spelling
import DataCommons.Flags.TwoRuns
import DataCommons.Flags.Report
import DataCommons.Flags.Reorder
import DataCommons.Flags.Register
import DataCommons.Flags.Reset
import DataCommons.Flags.Help
import DataCommons.Flags.CommandLine
import DataCommons.Flags.Numbers
import DataCommons.Flags.Sizes
import DataCommons.Flags.ListBound
import DataCommons.Params.Model
import DataCommons.Params.Scan
import DataCommons.Params.RoundTrip
import DataCommons.Params.Frame
import DataCommons.Params.Single
import DataCommons.Params.Lists
import DataCommons.Params.Binary
import DataCommons.Params.Walk
import DataCommons.Params.Mandatory
import DataCommons.Params.Rejected
import DataCommons.Params.LastLine
import DataCommons.Params.Spaces
import DataCommons.Params.Integers
import DataCommons.Params.ListItems
import DataCommons.Params.Safety
import DataCommons.Params.Memory
import DataCommons.Params.Neighbours
import DataCommons.Params.Settings
import DataCommons.Csv.Model
import DataCommons.Csv.Rows
import DataCommons.Csv.Fields
import DataCommons.Csv.Limits
import DataCommons.Csv.RoundTrip
import DataCommons.Csv.Residue
import DataCommons.Csv.Lookup
import DataCommons.Csv.LineEnds
import DataCommons.Csv.Sheet
import DataCommons.Csv.Handles
import DataCommons.Timers.Timer
