import Squeaknode.Node.Integrity
import Squeaknode.Node.Limits
import Squeaknode.Node.PayOffer
import Squeaknode.Node.PaymentProcessor
import Squeaknode.Node.InvoiceSubscription
import Squeaknode.Node.StoreRuns
import Squeaknode.Node.Payable
import Squeaknode.Node.ContentKeys
import Squeaknode.Node.Retention
import Squeaknode.Server.App
import Squeaknode.Server.AppRuns
import Squeaknode.Server.Secrecy
import Squeaknode.Wire.JsonText
import Squeaknode.Client.PeerDownloader
import Squeaknode.Client.PeerRuns
import Squeaknode.Client.KeyExchange
import Squeaknode.Client.SyncSoundness
import Squeaknode.Client.SyncIsolation
import Squeaknode.Client.ServedPeer
import Squeaknode.Client.SyncCompleteness
import Squeaknode.Client.OfferRuns
import Squeaknode.Interleave.Isolate
import Squeaknode.Interleave.Machine
import Squeaknode.Interleave.Stages
import Squeaknode.Db.Entries
import Squeaknode.Db.Statements
import Squeaknode.Admin.Messages
import Squeaknode.Admin.Feeds
import Squeaknode.Admin.TimeLists
import Squeaknode.Admin.WebApp
import Squeaknode.Frontend.FeedPages
import Squeaknode.Frontend.SqueaksSlice
import Squeaknode.Frontend.SqueakPage
import Squeaknode.Interleave.Faults
import Squeaknode.Node.Listeners
import Squeaknode.Node.MakeRuns
import Squeaknode.Db.Lookup
import Squeaknode.Db.OfferRetention
import Squeaknode.Admin.PrivateSqueaks
import Squeaknode.Node.ValidFlag
import Squeaknode.Relational.Recursive
import Squeaknode.Admin.Threads
import Squeaknode.Admin.TextSearch
import Squeaknode.Admin.PaymentSummaries
import Squeaknode.Node.PaymentsSubscription
import Squeaknode.Node.PaidOffers
import Squeaknode.Node.StopHandshake
import Squeaknode.Node.HandshakeRefinement
import Squeaknode.Admin.BuyOffers
import Squeaknode.Node.ExternalAddress
import Squeaknode.Node.Profiles
import Squeaknode.Node.FanOut
import Squeaknode.Node.TwitterForwarderTask
import Squeaknode.Node.TwitterForwarder
import Squeaknode.Url.Utf8
import Squeaknode.Url.Urlencoded
import Squeaknode.Frontend.SearchUrl
import Squeaknode.Interleave.InFlight
import Squeaknode.Frontend.ProfilesSlice
import Squeaknode.Frontend.PeersSlice
import Squeaknode.Frontend.RequestStatus
import Squeaknode.Interleave.Shared
import Squeaknode.Market.Operations
import Squeaknode.Market.Ledger
import Squeaknode.Market.Trading
import Squeaknode.Market.Network
import Squeaknode.Market.Agreement
import Squeaknode.Interleave.Linearizable
import Squeaknode.Server.SellPrice
import Squeaknode.Interleave.Progress
import Squeaknode.Node.StopProgress
import Squeaknode.Node.ForwarderProgress
import Squeaknode.Frontend.ShownFeeds
import Squeaknode.Node.TwitterAccounts
import Squeaknode.Node.ForwardedTweets
import Squeaknode.Interleave.Outcome
import Squeaknode.Db.Peers
import Squeaknode.Client.NetworkController
import Squeaknode.Client.Arrivals
import Squeaknode.Client.DownloadTurns
import Squeaknode.Client.ReliablePeer
import Squeaknode.Client.TimelineDownload
