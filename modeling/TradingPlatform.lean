import TradingPlatform.LinkedQueue
import TradingPlatform.OrderBook
import TradingPlatform.LevelQueue
import TradingPlatform.QueueOperations
import TradingPlatform.MatchingRefinement
import TradingPlatform.BookRefinement
import TradingPlatform.LadderInvariant
import TradingPlatform.Calls
import TradingPlatform.NaiveBook
import TradingPlatform.NaiveRefinement
import TradingPlatform.OrderIndex
import TradingPlatform.NaiveRuns
import TradingPlatform.BookView
import TradingPlatform.Identity
import TradingPlatform.Ledger
import TradingPlatform.Volumes
import TradingPlatform.PriceProtection
import TradingPlatform.Mirror
import TradingPlatform.Erasure
import TradingPlatform.FixParser
import TradingPlatform.FixSession
import TradingPlatform.FixStream
import TradingPlatform.EngineRuns
import TradingPlatform.FixReplies
import TradingPlatform.Fanout
import TradingPlatform.Hub
import TradingPlatform.MarketHub
import TradingPlatform.LiveFeed
import TradingPlatform.Json
import TradingPlatform.Ranking
import TradingPlatform.LiveFrames
import TradingPlatform.Topic
import TradingPlatform.TelemetryEvents
import TradingPlatform.Telemetry
import TradingPlatform.Listener
import TradingPlatform.Controller
import TradingPlatform.Sandboxes
import TradingPlatform.Splitting
import TradingPlatform.MatchingEnds
import TradingPlatform.LevelRuns
import TradingPlatform.FixInteger
import TradingPlatform.CancelRoute
import TradingPlatform.RunDuration
import TradingPlatform.FileTree
import TradingPlatform.BuildContext
import TradingPlatform.Decimals
import TradingPlatform.Standings
import TradingPlatform.LoadGenerator
import TradingPlatform.LoadShutdown
import TradingPlatform.Documents
import TradingPlatform.FeedMessages
import TradingPlatform.Greedy
import TradingPlatform.MarketFeed
import TradingPlatform.Priority
import TradingPlatform.Paths
import TradingPlatform.RestAnswers
import TradingPlatform.SubmissionRuns
import TradingPlatform.CatchingUp
import TradingPlatform.FileWrites
import TradingPlatform.FixServer
import TradingPlatform.ImageBuild
import TradingPlatform.RunProgress
