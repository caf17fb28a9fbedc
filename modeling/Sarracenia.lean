import Sarracenia.Library.Text
import Sarracenia.Library.Decimal
import Sarracenia.Library.Calendar
import Sarracenia.Library.Dynamic
import Sarracenia.Source.Message
import Sarracenia.Source.TimeNotation
import Sarracenia.Guarantees.TimeNotation
import Sarracenia.Library.FirstOfKey
import Sarracenia.Source.DiskQueue
import Sarracenia.Guarantees.DiskQueue.Merge
import Sarracenia.Guarantees.DiskQueue.Housekeeping
import Sarracenia.Guarantees.DiskQueue.Abort
import Sarracenia.Guarantees.DiskQueue.Invariant
import Sarracenia.Guarantees.DiskQueue.Crash
import Sarracenia.Source.Transfer
import Sarracenia.Guarantees.Send
import Sarracenia.Source.Config
import Sarracenia.Source.Placement
import Sarracenia.Source.Filter
import Sarracenia.Guarantees.Filter.Conservation
import Sarracenia.Guarantees.Filter.Immunity
import Sarracenia.Source.DoSend
import Sarracenia.Guarantees.DoSend
import Sarracenia.Library.Exits
import Sarracenia.Source.DoDownload
import Sarracenia.Guarantees.DoDownload.Operations
import Sarracenia.Guarantees.DoDownload.Turns
import Sarracenia.Guarantees.DoDownload.Conservation
import Sarracenia.Source.FlowLoop
import Sarracenia.Guarantees.FlowLoop.Stages
import Sarracenia.Guarantees.FlowLoop.Deaths
import Sarracenia.Source.Retry
import Sarracenia.Guarantees.Retry
import Sarracenia.Source.Post
import Sarracenia.Guarantees.Post
import Sarracenia.Guarantees.SendSuccess
import Sarracenia.Guarantees.Acknowledge
import Sarracenia.Source.PostFormat
import Sarracenia.Source.Reception
import Sarracenia.Guarantees.Reception.Amqp
import Sarracenia.Guarantees.Reception.Mqtt
import Sarracenia.Guarantees.DiskQueue.Length
import Sarracenia.Guarantees.RedisQueue.Agreement
import Sarracenia.Guarantees.RedisQueue.Conservation
import Sarracenia.Library.Table
import Sarracenia.Library.Expiry
import Sarracenia.Library.Percent
import Sarracenia.Source.NoDupe
import Sarracenia.Guarantees.NoDupe.Law
import Sarracenia.Guarantees.NoDupe.RoundTrip
import Sarracenia.Guarantees.NoDupe.Redis
import Sarracenia.Guarantees.Identity.Cache
import Sarracenia.Guarantees.Get
import Sarracenia.Guarantees.Download.Atomicity
import Sarracenia.Guarantees.Download.Retry
import Sarracenia.Guarantees.Reassembly.Runs
import Sarracenia.Guarantees.Filter.OldName
import Sarracenia.Source.Subscriptions
import Sarracenia.Guarantees.Subscriptions.Finalize
import Sarracenia.Guarantees.Filter.Accepted
import Sarracenia.Library.Latest
import Sarracenia.Source.MDelayLatest
import Sarracenia.Guarantees.MDelayLatest
import Sarracenia.Source.Watch
import Sarracenia.Guarantees.Watch
import Sarracenia.Guarantees.Scheduled
import Sarracenia.Library.Framing
import Sarracenia.Source.Am
import Sarracenia.Guarantees.Am
import Sarracenia.Library.Split
import Sarracenia.Library.Keys
import Sarracenia.Source.V2Wrapper
import Sarracenia.Source.Export
import Sarracenia.Guarantees.V02.Steps
import Sarracenia.Guarantees.V02.Address
import Sarracenia.Library.Number
import Sarracenia.Guarantees.V02.Codec
import Sarracenia.Guarantees.V02.Sum
import Sarracenia.Guarantees.V02.Attributes
import Sarracenia.Guarantees.V02.Event
import Sarracenia.Guarantees.V02.RoundTrip
import Sarracenia.Source.Numbered
import Sarracenia.Guarantees.V03
import Sarracenia.Source.AmSend
import Sarracenia.Guarantees.AmSend
import Sarracenia.Library.Replace
import Sarracenia.Library.Url
import Sarracenia.Source.Credentials
import Sarracenia.Guarantees.Credentials.Keys
import Sarracenia.Guarantees.Credentials.Lookups
import Sarracenia.Source.SubscriptionFile
import Sarracenia.Guarantees.Subscriptions.Persisted
import Sarracenia.Library.Glob
import Sarracenia.Source.Sr
import Sarracenia.Source.SrActions
import Sarracenia.Guarantees.Sr.Status
import Sarracenia.Guarantees.Sr.Launch
import Sarracenia.Source.SrRace
import Sarracenia.Guarantees.Sr.Exclusion
import Sarracenia.Guarantees.Sr.Signals
import Sarracenia.Guarantees.Sr.DryRun
import Sarracenia.Source.Wmo00
import Sarracenia.Guarantees.Wmo00.Envelope
import Sarracenia.Guarantees.Wmo00.Reading
import Sarracenia.Guarantees.Wmo00.Record
import Sarracenia.Guarantees.Wmo00.RoundTrip
import Sarracenia.Library.Collect
import Sarracenia.Source.Poll
import Sarracenia.Guarantees.Poll.Tree
import Sarracenia.Guarantees.Poll.Complete
import Sarracenia.Library.Utf8
import Sarracenia.Source.Posting
import Sarracenia.Guarantees.Posting
import Sarracenia.Library.Rewriting
import Sarracenia.Guarantees.Expansion.Termination
import Sarracenia.Guarantees.Expansion.Fields
import Sarracenia.Guarantees.Placement.Announced
import Sarracenia.Library.Paths
import Sarracenia.Source.FileInfo
import Sarracenia.Guarantees.Placement.Stages
import Sarracenia.Guarantees.Placement.Law
import Sarracenia.Guarantees.Placement.Links
import Sarracenia.Source.Walk
import Sarracenia.Guarantees.Gather.Tree
import Sarracenia.Guarantees.Gather.Moved
import Sarracenia.Guarantees.Gather.Walked
import Sarracenia.Source.Inline
import Sarracenia.Guarantees.Inline
import Sarracenia.Source.QueueNames
import Sarracenia.Guarantees.QueueNames.Moves
import Sarracenia.Guarantees.QueueNames.Agreement
import Sarracenia.Library.Binary64
import Sarracenia.Source.ReadWrite
import Sarracenia.Guarantees.Writing
import Sarracenia.Guarantees.ReadWrite
import Sarracenia.Guarantees.BlockPut
import Sarracenia.Source.Bulletin
import Sarracenia.Guarantees.Bulletin
import Sarracenia.Source.Duration
import Sarracenia.Guarantees.Duration
import Sarracenia.Guarantees.Wmo00.Worklists
import Sarracenia.Source.Wmo2msc
import Sarracenia.Guarantees.Wmo2msc
import Sarracenia.Source.Aggregation
import Sarracenia.Guarantees.Aggregation
import Sarracenia.Source.Conversion
import Sarracenia.Guarantees.Conversion.Exceptions
import Sarracenia.Guarantees.Conversion.Names
import Sarracenia.Guarantees.Conversion.Lines
import Sarracenia.Guarantees.Conversion.Passes
import Sarracenia.Library.Braces
import Sarracenia.Guarantees.Expansion.Patterns
import Sarracenia.Guarantees.Expansion.Stamps
import Sarracenia.Guarantees.Expansion.Dates
import Sarracenia.Source.BlockCopy
import Sarracenia.Guarantees.Reassembly.CopyLoop
import Sarracenia.Source.MothMetrics
import Sarracenia.Guarantees.Downtime
import Sarracenia.Source.ConfigFile
import Sarracenia.Guarantees.ConfigFile.Masks
import Sarracenia.Guarantees.ConfigFile.Branches
import Sarracenia.Guarantees.ConfigFile.Lines
import Sarracenia.Guarantees.ConfigFile.Files
import Sarracenia.Library.Runs
import Sarracenia.Source.Amq1
import Sarracenia.Guarantees.Amq1.Window
import Sarracenia.Guarantees.Amq1.Stages
import Sarracenia.Source.MqttPublish
import Sarracenia.Guarantees.MqttPublish
import Sarracenia.Source.Bindings
import Sarracenia.Guarantees.Bindings
import Sarracenia.Source.FlowRun
import Sarracenia.Guarantees.FlowRun.Turns
import Sarracenia.Guarantees.FlowRun.Gather
import Sarracenia.Guarantees.FlowRun.Clock
import Sarracenia.Guarantees.FlowRun.Ends
import Sarracenia.Source.InlinePost
import Sarracenia.Guarantees.InlinePost
import Sarracenia.Library.Tree
import Sarracenia.Source.FileTree
import Sarracenia.Guarantees.FileTree
import Sarracenia.Guarantees.Mirror
