import Farder.Support.FiniteMap
import Farder.Support.Guarded
import Farder.Support.Execution
import Farder.Support.KeyGroup
import Farder.Support.Table
import Farder.EventLog
import Farder.LogState
import Farder.LogAuthz
import Farder.LogApply
import Farder.LogSpec
import Farder.LogStep
import Farder.LogInvariant
import Farder.EventChains
import Farder.GroupRefinement
import Farder.GroupStep
import Farder.SampleLog
import Farder.OutsiderWrites
import Farder.OwnerStanding
import Farder.LeafEviction
import Farder.DeviceBinding
import Farder.DeviceCap
import Farder.DriftDischarge
import Farder.KeyPackageUse
import Farder.LeafConfirmation
import Farder.Provenance
import Farder.RecordedFacts
import Farder.EpochChain
import Farder.ChannelSeparation
import Farder.GroupReset
import Farder.ResetObligations
import Farder.VoidObligations
import Farder.SealedContent
import Farder.Server.Db
import Farder.Server.Messages
import Farder.Server.EventIngest
import Farder.Server.Reconcile
import Farder.Server.Requests
import Farder.Server.View
import Farder.Server.Step
import Farder.Server.AttachmentLinks
import Farder.Server.Advance
import Farder.Server.Consistency
import Farder.Server.ReconcileSpec
import Farder.Server.RestartSpec
import Farder.Server.RunInvariant
import Farder.Server.LogView
import Farder.Server.Rebuild
import Farder.Server.SampleHost
import Farder.DeletionsSurvive
import Farder.ViewRebuild
import Farder.FrameLoop
import Farder.SubmitAtomicity
import Farder.BanLasts
import Farder.FileRedaction
import Farder.LiveSessions
import Farder.MemberHierarchy
import Farder.PostingAuthority
import Farder.PrivilegeEscalation
import Farder.RequestPanics
import Farder.ChannelIdSpaces
import Farder.OneOwner
import Farder.PermissionModel
import Farder.Server.Entries
import Farder.Server.SampleHub
import Farder.SessionCleanup
import Farder.ThreadAccess
import Farder.VersionIsolation
import Farder.Announcements
import Farder.MessageStore
import Farder.FileExistence
import Farder.Server.VoiceRoster
import Farder.Support.Reports
import Farder.VoicePresence
import Farder.AddedInvited
import Farder.CertifiedLeaves
import Farder.Client.Join
import Farder.Client.Sealed
import Farder.Divergence
import Farder.JoinSurvives
import Farder.SealedAuthorship
import Farder.Server.Board
import Farder.Server.BoardRun
import Farder.Server.BoardSteps
import Farder.CommitTurns
import Farder.CorroboratedClock
import Farder.ListConverges
import Farder.LocalPurges
import Farder.ReactionCounts
import Farder.SealedEdits
import Farder.Participation
import Farder.DueSweep
import Farder.Media.Datagram
import Farder.Media.Reassembler
import Farder.MediaRoundTrip
import Farder.PagedFetch
import Farder.Client.Reset
import Farder.Client.Resync
import Farder.JitterOrder
import Farder.KeyPackageChoice
import Farder.Media.Receive
import Farder.ResyncBounds
import Farder.VoiceRecovery
import Farder.EnvelopePadding
import Farder.LimiterWindows
import Farder.SearchExact
import Farder.Client.FilePolicy
import Farder.SafeFilename
import Farder.Server.Activity
import Farder.SpeakingIndicators
import Farder.Client.Voice
import Farder.MuteDeafen
import Farder.CardDates
import Farder.Client.HistoryStore
import Farder.Server.Ssrf
import Farder.FetchGuard
import Farder.Counters
import Farder.GroupRecords
import Farder.RankKept
import Farder.HistoryMap
import Farder.SendAtomicity
import Farder.Server.Slash
import Farder.SlashPanics
import Farder.RelayTenants
import Farder.BuilderRoundTrip
import Farder.OnceOnly
import Farder.OpenCards
import Farder.Subscriptions
import Farder.EventBytes
import Farder.Login
