import PickleChat.Lib.Keyed
import PickleChat.Lib.Run
import PickleChat.Lib.Async
import PickleChat.Lib.Text
import PickleChat.Lib.Base32
import PickleChat.Lib.Word
import PickleChat.Identity
import PickleChat.Perms
import PickleChat.Proto
import PickleChat.State
import PickleChat.Store
import PickleChat.Admin
import PickleChat.Moderation
import PickleChat.Session
import PickleChat.Bind
import PickleChat.Delivery
import PickleChat.RoleCommands
import PickleChat.RoleLists
import PickleChat.RoleTable
import PickleChat.RoleMirror
import PickleChat.Escalation
import PickleChat.Hierarchy
import PickleChat.RoleRaces
import PickleChat.ChannelCommands
import PickleChat.ChannelMirror
import PickleChat.Roster
import PickleChat.Serve
import PickleChat.Restart
import PickleChat.Lib.Protocol
import PickleChat.BanRaces
import PickleChat.Faults
import PickleChat.Authority
import PickleChat.ChannelIds
import PickleChat.Lib.Forest
import PickleChat.ChannelTree
import PickleChat.Config
import PickleChat.Seeding
import PickleChat.ChannelRuns
import PickleChat.Lib.Feed
import PickleChat.ChannelViews
import PickleChat.Lib.Postcard
import PickleChat.Frames
import PickleChat.Lib.Stream
import PickleChat.Codec
import PickleChat.Hidden
import PickleChat.Inert
import PickleChat.Lib.Bounded
import PickleChat.Sections
import PickleChat.Lifecycle
import PickleChat.LiveGrants
import PickleChat.MessageIds
import PickleChat.Occupancy
import PickleChat.OverwriteRule
import PickleChat.Template
import PickleChat.Parents
import PickleChat.RoleLadder
import PickleChat.Teardown
import PickleChat.RosterRaces
import PickleChat.StoredSizes
import PickleChat.Operations
import PickleChat.Traffic
import PickleChat.TreeRaces
import PickleChat.ViewRaces
import PickleChat.Voice
import PickleChat.Signatures
import PickleChat.Connect
import PickleChat.Agreement
import PickleChat.Jitter
import PickleChat.Playback
import PickleChat.Pins
import PickleChat.Lib.Json
import PickleChat.Sealed
import PickleChat.Vault
import PickleChat.Reopening
import PickleChat.HistoryPages
import PickleChat.Lib.Program
import PickleChat.Desktop
import PickleChat.Duties
import PickleChat.VoiceRoute
import PickleChat.VoiceStates
import PickleChat.Lib.Newest
import PickleChat.Scrollback
import PickleChat.Retention
import PickleChat.Resolution
import PickleChat.ScopedModeration
import PickleChat.Relay
import PickleChat.Posting
import PickleChat.Admissions
import PickleChat.RoleIds
import PickleChat.Tabs
import PickleChat.PermMirror
import PickleChat.Opening
import PickleChat.Rendering
import PickleChat.Mirrors
import PickleChat.Grants
import PickleChat.RenderedRuns
import PickleChat.Lib.Assoc
import PickleChat.Mixer
import PickleChat.Concealment
import PickleChat.Bursts
import PickleChat.Reordering
import PickleChat.BurstOrder
import PickleChat.LocalSettings
import PickleChat.Capture
import PickleChat.MutedCapture
import PickleChat.Lib.Files
import PickleChat.KeyFiles
import PickleChat.Rekeying
import PickleChat.PrivateFiles
import PickleChat.Lib.Bucket
import PickleChat.RateLimit
import PickleChat.FingerprintText
import PickleChat.Addresses
import PickleChat.Lib.Merge
import PickleChat.MessageList
import PickleChat.Lib.Scan
import PickleChat.Mining
import PickleChat.Remining
import PickleChat.MiningRaces
import PickleChat.Lib.Window
import PickleChat.Resample
import PickleChat.Lib.Blocks
import PickleChat.CaptureStage
import PickleChat.Refill
import PickleChat.Nicknames
import PickleChat.MouseRules
import PickleChat.Periods
import PickleChat.Accounting
import PickleChat.SequenceOrder
import PickleChat.Lib.Ledger
import PickleChat.Notices
import PickleChat.Answers
import PickleChat.PostOrder
import PickleChat.ChannelMatrix
import PickleChat.Recording
import PickleChat.ArrivalOrder
import PickleChat.Lib.Pipeline
import PickleChat.VoicePath
import PickleChat.TabLists
import PickleChat.ListedRuns
import PickleChat.RoleEdits
import PickleChat.MembersTab
import PickleChat.Bookmarks
