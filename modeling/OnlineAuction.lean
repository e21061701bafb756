import OnlineAuction.Bidding.AnyOrder
import OnlineAuction.Bidding.Minimum
import OnlineAuction.Bidding.Replay
import OnlineAuction.Lifecycle.Reserve
import OnlineAuction.Search.CursorText
import OnlineAuction.System.Answers
import OnlineAuction.System.Backlog
import OnlineAuction.System.Cents
import OnlineAuction.System.Creation
import OnlineAuction.System.Deadline
import OnlineAuction.System.FrameOrder
import OnlineAuction.System.HistoryReader
import OnlineAuction.System.House
import OnlineAuction.System.LiveText
import OnlineAuction.System.LostHash
import OnlineAuction.System.Outage
import OnlineAuction.System.Polls
import OnlineAuction.System.Prices
import OnlineAuction.System.Progress
import OnlineAuction.System.Proxies
import OnlineAuction.System.Reading
import OnlineAuction.System.Registration
import OnlineAuction.System.Rejected
import OnlineAuction.System.Rulings
import OnlineAuction.System.Scripts
import OnlineAuction.System.Seconds
import OnlineAuction.System.States
import OnlineAuction.System.StreamOrder
import OnlineAuction.System.Wire
