import MBroker.Library.Runs
import MBroker.Library.Overlap
import MBroker.Library.FirstFit
import MBroker.Library.Memory
import MBroker.Library.CString
import MBroker.Common
import MBroker.Fs.State
import MBroker.Fs.Operations
import MBroker.Fs.Tables
import MBroker.Fs.Directory
import MBroker.Fs.Invariant
import MBroker.Fs.Effects
import MBroker.Fs.Abstract
import MBroker.Fs.Refinement
import MBroker.Fs.Isolation
import MBroker.Library.Ring
import MBroker.Queue.Model
import MBroker.Queue.Order
import MBroker.Broker.Boxes
import MBroker.Broker.Machine
import MBroker.Broker.Progress
import MBroker.Broker.Overlap
import MBroker.Fs.Files
import MBroker.Broker.Publish
import MBroker.Broker.Start
import MBroker.Fs.AnyUse
import MBroker.Fs.Leaks
import MBroker.Library.Stream
import MBroker.Wire.Requests
import MBroker.Broker.Table
import MBroker.Broker.Serve
import MBroker.Wire.Listing
import MBroker.Broker.Names
import MBroker.Broker.Answers
import MBroker.Broker.Visits
import MBroker.Broker.Capacity
import MBroker.Broker.Admin
import MBroker.Broker.Bystanders
import MBroker.Broker.Finishing
import MBroker.Broker.Removal
import MBroker.Broker.Sessions
import MBroker.Broker.Calls
import MBroker.Broker.Handles
import MBroker.Fs.Cursors
import MBroker.Broker.Slots
import MBroker.Broker.Placement
import MBroker.Broker.Provenance
import MBroker.Broker.Counters
import MBroker.Library.Simulation
import MBroker.Queue.Refinement
import MBroker.Queue.Wakeups
import MBroker.Fs.Offsets
import MBroker.Fs.Failures
import MBroker.Fs.Restart
import MBroker.Broker.Replay
import MBroker.Broker.Locks
import MBroker.Broker.Victims
import MBroker.Broker.Leftovers
import MBroker.Broker.Delivery
import MBroker.Broker.Following
import MBroker.Wire.ListEnd
import MBroker.Wire.Fields
import MBroker.Library.Lines
import MBroker.Wire.Lines
import MBroker.Library.Holders
import MBroker.Queue.Custody
import MBroker.Wire.Subscriber
import MBroker.Broker.Sleepers
import MBroker.Broker.Guarded
import MBroker.Broker.Verdicts
import MBroker.Wire.Manager
import MBroker.Server.Model
import MBroker.Server.Dispatch
import MBroker.Server.Table
import MBroker.Server.Relay
import MBroker.Server.Report
import MBroker.Broker.Descriptors
import MBroker.Broker.Holding
import MBroker.Fs.Advances
import MBroker.Server.Shutdown
