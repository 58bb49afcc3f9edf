import Conglobate.Lib.ByteStore
import Conglobate.Lib.LittleEndian
import Conglobate.Lib.Text
import Conglobate.Lib.Utf8
import Conglobate.Lib.Cbor
import Conglobate.Ciborium
import Conglobate.Process.Packet
import Conglobate.Process.PacketProps
import Conglobate.Process.Supervision
import Conglobate.Process.SupervisionProps
import Conglobate.Process.Supervised
import Conglobate.Process.Control
import Conglobate.Step.Execution
import Conglobate.Step.ExecutionProps
import Conglobate.Step.Custody
import Conglobate.Launch.Helper
import Conglobate.Launch.HelperProps
import Conglobate.Launch.Cutoff
import Conglobate.Lib.Flow
import Conglobate.Lib.File
import Conglobate.Lib.OrdMap
import Conglobate.Lib.Json
import Conglobate.Lib.JsonText
import Conglobate.Lib.Machine
import Conglobate.Lib.Journal
import Conglobate.Lib.Ascii
import Conglobate.Lib.Split
import Conglobate.Lib.Mounts
import Conglobate.Lib.Posix
import Conglobate.Lib.Ipv6
import Conglobate.Lib.ContentStore
import Conglobate.Lib.Crc32
import Conglobate.Lib.DepthFirst
import Conglobate.Artifact.Config
import Conglobate.Artifact.ConfigProps
import Conglobate.Artifact.Digest
import Conglobate.Artifact.Manifest
import Conglobate.Artifact.ManifestProps
import Conglobate.Artifact.WellFormed
import Conglobate.Artifact.Index
import Conglobate.Artifact.Reference
import Conglobate.Carapace
import Conglobate.Storage.SnapshotExtent
import Conglobate.Storage.SnapshotImage
import Conglobate.Storage.Compact
import Conglobate.Storage.CompactPlan
import Conglobate.Storage.CompactStream
import Conglobate.Storage.CompactProps
import Conglobate.Storage.CompactTrace
import Conglobate.BootConfig.Basic
import Conglobate.BootConfig.Document
import Conglobate.BootConfig.Parser
import Conglobate.BootConfig.Grammar
import Conglobate.BootConfig.RoundTrip
import Conglobate.BootConfig.Semantics
import Conglobate.BootConfig.Accepted
import Conglobate.BootConfig.Reencode
import Conglobate.BootConfig.Budget
import Conglobate.Disk.Wire
import Conglobate.Disk.Read
import Conglobate.Disk.Table
import Conglobate.Disk.ReadSound
import Conglobate.Disk.Layout
import Conglobate.Disk.RoundTrip
import Conglobate.Disk.Props
import Conglobate.Disk.WriteFrame
import Conglobate.Disk.Probe
import Conglobate.Storage.Partitioned
import Conglobate.Plan.Basic
import Conglobate.Copy.Pattern
import Conglobate.Copy.Grammar
import Conglobate.Copy.Match
import Conglobate.Copy.RuneWise
import Conglobate.Copy.Source
import Conglobate.Copy.Components
import Conglobate.Context.Entry
import Conglobate.Copy.Resolve
import Conglobate.Context.Capture
import Conglobate.Context.Place
import Conglobate.Context.Scan
import Conglobate.Context.Read
import Conglobate.Context.Expand
import Conglobate.Context.CaptureProps
import Conglobate.Copy.Volume
import Conglobate.Copy.Write
import Conglobate.Copy.Overlay
import Conglobate.Copy.Puts
import Conglobate.Copy.WriteProps
import Conglobate.Copy.Image
import Conglobate.Copy.ImageProps
import Conglobate.Copy.Agree
import Conglobate.Copy.Selection
import Conglobate.Copy.Descendants
import Conglobate.Copy.Destination
import Conglobate.Copy.DestinationProps
import Conglobate.Network.ResolverTarget
import Conglobate.Network.ResolverProps
import Conglobate.Isolation.Gate
import Conglobate.Isolation.GateProps
import Conglobate.Isolation.Runtime
import Conglobate.Isolation.RuntimeProps
import Conglobate.Isolation.User
import Conglobate.Storage.Ownership
import Conglobate.Storage.StageMounts
import Conglobate.Storage.StageMountsProps
import Conglobate.Filesystem.Children
import Conglobate.Filesystem.MountRecords
import Conglobate.Filesystem.ChildrenProps
import Conglobate.Formatter
import Conglobate.Planner.Basic
import Conglobate.Planner.Order
import Conglobate.Image
import Conglobate.Plan.Remote
import Conglobate.Storage.Sealed
import Conglobate.Input.CheckedImage
import Conglobate.Input.Availability
import Conglobate.Cache.Content
import Conglobate.Pipeline.BootConfig
import Conglobate.Pipeline.Overlay
import Conglobate.Pipeline.Output
import Conglobate.Pipeline.Run
import Conglobate.Pipeline.Binding
import Conglobate.Pipeline.Availability
import Conglobate.Output.Publish
import Conglobate.Output.Staging
import Conglobate.Output.Verified
import Conglobate.Output.Assembly
import Conglobate.Output.AssemblyProps
import Conglobate.Output.Inherited
import Conglobate.Output.Manifest
import Conglobate.Output.Assembled
import Conglobate.Output.Contained
import Conglobate.Output.Bound
import Conglobate.Graph.Basic
import Conglobate.Graph.Inputs
import Conglobate.Graph.Selected
import Conglobate.Cache.Chain
import Conglobate.Cache.ChainProps
import Conglobate.Lib.Demand
import Conglobate.Context.Partly
import Conglobate.Copy.Lazy
import Conglobate.Copy.Prepare
import Conglobate.Lib.Triple
import Conglobate.Isolation.Shell
import Conglobate.Isolation.ShellProps
import Conglobate.Isolation.Injected
import Conglobate.Lib.Words
import Conglobate.Lib.Processes
import Conglobate.Process.Reaper
import Conglobate.Domain.Cancel
import Conglobate.Domain.Quiescence
import Conglobate.Domain.Stops
import Conglobate.Domain.Unmounted
import Conglobate.Path
import Conglobate.Formatter.Capture
import Conglobate.Formatter.Selected
import Conglobate.Formatter.Stage
import Conglobate.Formatter.Staged
import Conglobate.Formatter.Execution
import Conglobate.Formatter.Formatted
