import MeshcoreBbs.PacketBounds
import MeshcoreBbs.Reassembly
import MeshcoreBbs.OutboundSettled
import MeshcoreBbs.OutboundAge
import MeshcoreBbs.OutboundOrder
import MeshcoreBbs.OutboundRetries
import MeshcoreBbs.OutboundPause
import MeshcoreBbs.OutboundGap
import MeshcoreBbs.Mail
import MeshcoreBbs.PartialNames
import MeshcoreBbs.BroadcastReach
import MeshcoreBbs.Reload
import MeshcoreBbs.BanRuns
import MeshcoreBbs.InternalErrors
import MeshcoreBbs.RateWindows
import MeshcoreBbs.PostLimits
import MeshcoreBbs.MailVisibility
import MeshcoreBbs.OutboundFairness
import MeshcoreBbs.OutboundRecipientGap
import MeshcoreBbs.Migrations
import MeshcoreBbs.BoardDeletion
import MeshcoreBbs.ContactPrune
import MeshcoreBbs.UserNames
import MeshcoreBbs.Privileges
import MeshcoreBbs.Gates
import MeshcoreBbs.AdminAudit
import MeshcoreBbs.Answers
import MeshcoreBbs.RateDecisions
import MeshcoreBbs.CommandRest
import MeshcoreBbs.NewsPages
import MeshcoreBbs.ListingWalk
import MeshcoreBbs.ListingLines
import MeshcoreBbs.VisibleNames
import MeshcoreBbs.QuotaRuns
import MeshcoreBbs.WeatherRequests
import MeshcoreBbs.PostBodies
import MeshcoreBbs.BanTargets
import MeshcoreBbs.PacketCounts
import MeshcoreBbs.NewsSlugs
import MeshcoreBbs.LogStream
import MeshcoreBbs.OutboundService
import MeshcoreBbs.OutboundRestarts
import MeshcoreBbs.OutboundDrain
import MeshcoreBbs.EventPump
import MeshcoreBbs.TransportPaths
import MeshcoreBbs.TransportEvents
import MeshcoreBbs.JobLoops
import MeshcoreBbs.Reconnect
import MeshcoreBbs.HostRows
import MeshcoreBbs.NoticeRuns
