import MaterialOpenWebui.Js.Number
import MaterialOpenWebui.Js.Text
import MaterialOpenWebui.Js.Value
import MaterialOpenWebui.Js.Json
import MaterialOpenWebui.Js.JsonRoundTrip
import MaterialOpenWebui.Lib.HashChain
import MaterialOpenWebui.History.Log
import MaterialOpenWebui.Lib.Run
import MaterialOpenWebui.History.Chain
import MaterialOpenWebui.History.Runs
import MaterialOpenWebui.History.RecordChange
import MaterialOpenWebui.History.Canonical
import MaterialOpenWebui.History.Tamper
import MaterialOpenWebui.History.Reload
import MaterialOpenWebui.Js.Radix
import MaterialOpenWebui.Lib.StableSort
import MaterialOpenWebui.Tabs.Model
import MaterialOpenWebui.Tabs.Invariant
import MaterialOpenWebui.Tabs.Layout
import MaterialOpenWebui.Lib.Calendar
import MaterialOpenWebui.Js.Digits
import MaterialOpenWebui.Schedule.Rule
import MaterialOpenWebui.Schedule.Evaluate
import MaterialOpenWebui.Schedule.Spec
import MaterialOpenWebui.Lib.Intervals
import MaterialOpenWebui.Schedule.Dst
import MaterialOpenWebui.Js.Bytes
import MaterialOpenWebui.Totp.Code
import MaterialOpenWebui.Locks.Model
import MaterialOpenWebui.Locks.Attempts
import MaterialOpenWebui.Locks.References
import MaterialOpenWebui.Locks.Credentials
import MaterialOpenWebui.Lib.Window
import MaterialOpenWebui.Locks.Ladder
import MaterialOpenWebui.Backend.Model
import MaterialOpenWebui.Backend.Children
import MaterialOpenWebui.Backend.Stopping
import MaterialOpenWebui.Lib.Dict
import MaterialOpenWebui.Lib.Forest
import MaterialOpenWebui.Py.Text
import MaterialOpenWebui.Py.Value
import MaterialOpenWebui.Chats.History
import MaterialOpenWebui.Chats.Tree
import MaterialOpenWebui.Chats.Deletion
import MaterialOpenWebui.Py.Number
import MaterialOpenWebui.Chats.Usage
import MaterialOpenWebui.Chats.Rows
import MaterialOpenWebui.Chats.Accounting
import MaterialOpenWebui.Py.Sanitize
import MaterialOpenWebui.Chats.Store
import MaterialOpenWebui.Chats.Reading
import MaterialOpenWebui.Chats.Refinement
import MaterialOpenWebui.Chats.Branch
import MaterialOpenWebui.Chats.Checkpoint
import MaterialOpenWebui.Chats.Healing
import MaterialOpenWebui.Chats.Compaction
import MaterialOpenWebui.Lib.Digest
import MaterialOpenWebui.Chats.Coverage
import MaterialOpenWebui.Chats.CoverageRuns
import MaterialOpenWebui.Lib.Pieces
import MaterialOpenWebui.Streams.Oversize
import MaterialOpenWebui.Responses.Event
import MaterialOpenWebui.Responses.Items
import MaterialOpenWebui.Responses.Stray
import MaterialOpenWebui.Automations.Recurrence
import MaterialOpenWebui.Lib.WallClock
import MaterialOpenWebui.Py.Lines
import MaterialOpenWebui.Automations.Advance
import MaterialOpenWebui.Timers.Model
import MaterialOpenWebui.Timers.Firing
import MaterialOpenWebui.Anthropic.Stream
import MaterialOpenWebui.Lib.Blocks
import MaterialOpenWebui.Lib.Raising
import MaterialOpenWebui.Anthropic.Invariant
import MaterialOpenWebui.Anthropic.Lifecycle
import MaterialOpenWebui.Anthropic.Arguments
import MaterialOpenWebui.Anthropic.Fragments
import MaterialOpenWebui.Anthropic.Table
import MaterialOpenWebui.Py.Json
import MaterialOpenWebui.Py.Numeral
import MaterialOpenWebui.Anthropic.Request
import MaterialOpenWebui.Py.JsonRoundTrip
import MaterialOpenWebui.Anthropic.Conversion
import MaterialOpenWebui.Lib.Turns
import MaterialOpenWebui.Replay.Model
import MaterialOpenWebui.Replay.Pairing
import MaterialOpenWebui.Replay.Stretches
import MaterialOpenWebui.Access.Grants
import MaterialOpenWebui.Lib.Sql
import MaterialOpenWebui.Access.Permissions
import MaterialOpenWebui.Lib.Nested
import MaterialOpenWebui.Access.Enforcement
import MaterialOpenWebui.Folders.Model
import MaterialOpenWebui.Lib.Walk
import MaterialOpenWebui.Folders.Forest
import MaterialOpenWebui.Knowledge.Directories
import MaterialOpenWebui.Knowledge.Moves
import MaterialOpenWebui.Knowledge.Resolvers
import MaterialOpenWebui.Knowledge.Paths
import MaterialOpenWebui.Socket.RedisDict
import MaterialOpenWebui.Lib.Cursor
import MaterialOpenWebui.Tasks.Local
import MaterialOpenWebui.Tasks.Stopping
import MaterialOpenWebui.Lib.Compaction
import MaterialOpenWebui.Socket.Ydoc
import MaterialOpenWebui.Tasks.Shared
import MaterialOpenWebui.CalendarEvents.Alerts
import MaterialOpenWebui.CalendarEvents.Events
import MaterialOpenWebui.Lib.AllSome
import MaterialOpenWebui.Access.BaseModels
import MaterialOpenWebui.Access.RateLimit
import MaterialOpenWebui.Access.Sharing
import MaterialOpenWebui.Lib.Rolling
import MaterialOpenWebui.Chats.Fork
import MaterialOpenWebui.Lib.ShiftRegister
import MaterialOpenWebui.Qr.Codewords
import MaterialOpenWebui.Qr.Field
import MaterialOpenWebui.Qr.Remainder
import MaterialOpenWebui.Messages.Import
import MaterialOpenWebui.Messages.List
import MaterialOpenWebui.Js.Object
import MaterialOpenWebui.Messages.Sanitize
import MaterialOpenWebui.Lib.Cut
import MaterialOpenWebui.Py.Shlex
import MaterialOpenWebui.Knowledge.Pipeline
import MaterialOpenWebui.Lib.Rewrite
import MaterialOpenWebui.Prompts.Template
import MaterialOpenWebui.Prompts.Rag
import MaterialOpenWebui.Prompts.System
import MaterialOpenWebui.Prompts.Variables
import MaterialOpenWebui.History.Undo
import MaterialOpenWebui.Js.Decoder
import MaterialOpenWebui.Lib.Quoted
import MaterialOpenWebui.Tables.Delimited
import MaterialOpenWebui.Js.Indent
import MaterialOpenWebui.Tables.Convert
import MaterialOpenWebui.Tables.Rfc4180
import MaterialOpenWebui.Tables.CsvJson
import MaterialOpenWebui.Lib.BitString
import MaterialOpenWebui.Qr.Placement
import MaterialOpenWebui.Qr.RoundTrip
import MaterialOpenWebui.Qr.Standard
import MaterialOpenWebui.Lib.Guarded
import MaterialOpenWebui.Lib.LittleEndian
import MaterialOpenWebui.Zip.Listing
import MaterialOpenWebui.Zip.Safety
import MaterialOpenWebui.Zip.Rows
import MaterialOpenWebui.Zip.Archive
import MaterialOpenWebui.Schedule.Resolve
import MaterialOpenWebui.Schedule.Document
import MaterialOpenWebui.Schedule.Editor
import MaterialOpenWebui.Site.Store
import MaterialOpenWebui.Site.Export
import MaterialOpenWebui.Zip.Zip64
import MaterialOpenWebui.Lib.Worklist
import MaterialOpenWebui.Ollama.Catalogue
import MaterialOpenWebui.Ollama.Complete
import MaterialOpenWebui.Lib.Scan
import MaterialOpenWebui.Tables.XmlReader
import MaterialOpenWebui.Tables.Xml
import MaterialOpenWebui.Tables.TomlReader
import MaterialOpenWebui.Tables.Toml
import MaterialOpenWebui.Tables.TomlExport
import MaterialOpenWebui.Js.Uri
import MaterialOpenWebui.Js.Url
import MaterialOpenWebui.Js.Numeric
import MaterialOpenWebui.Totp.Uri
import MaterialOpenWebui.History.Labels
import MaterialOpenWebui.History.Redaction
import MaterialOpenWebui.Hardware.Fit
import MaterialOpenWebui.Js.Streaming
import MaterialOpenWebui.Lib.Feed
import MaterialOpenWebui.Ollama.Ndjson
import MaterialOpenWebui.Tables.Markdown
import MaterialOpenWebui.Logo.Dimensions
import MaterialOpenWebui.Logo.Headers
import MaterialOpenWebui.Logo.Inspect
import MaterialOpenWebui.Logo.Jpeg
import MaterialOpenWebui.Lib.Record
import MaterialOpenWebui.Lib.Together
import MaterialOpenWebui.Vocabulary.Model
import MaterialOpenWebui.Vocabulary.Apply
import MaterialOpenWebui.Tabs.Closing
import MaterialOpenWebui.Tabs.Reorder
import MaterialOpenWebui.Site.Selection
import MaterialOpenWebui.Chats.Merging
import MaterialOpenWebui.Chats.Totals
import MaterialOpenWebui.Timers.Creation
import MaterialOpenWebui.Knowledge.Updates
import MaterialOpenWebui.Py.Instant
import MaterialOpenWebui.CalendarEvents.Recurring
import MaterialOpenWebui.Lib.TwoClocks
import MaterialOpenWebui.Replay.ToolPairs
import MaterialOpenWebui.Knowledge.Ranking
import MaterialOpenWebui.Site.Colour
import MaterialOpenWebui.Site.Patches
import MaterialOpenWebui.Lib.Extent
import MaterialOpenWebui.Streams.SplitCalls
import MaterialOpenWebui.Socket.RedisLock
