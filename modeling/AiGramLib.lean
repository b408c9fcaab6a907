import AiGramLib.Bots.Distinct
import AiGramLib.Bots.InUse
import AiGramLib.Bots.Lasting
import AiGramLib.Bots.Relaunch
import AiGramLib.Bots.Untouched
import AiGramLib.Bots.Rest
import AiGramLib.Details.FirstStart
import AiGramLib.Details.Order
import AiGramLib.Details.Requests
import AiGramLib.Details.Snapshot
import AiGramLib.Details.Rest
import AiGramLib.Details.Shown
import AiGramLib.InterpreterOperation
import AiGramLib.Processor.Process
import AiGramLib.Processor.Registry
import AiGramLib.Processor.Waited
import AiGramLib.Session.Active
import AiGramLib.Session.Lasting
import AiGramLib.Search.Current
import AiGramLib.Search.Rest
import AiGramLib.Search.Snapshots
import AiGramLib.Messages.Newest
import AiGramLib.Messages.Results
import AiGramLib.Messages.Rest
import AiGramLib.Messages.Replies
import AiGramLib.Messages.Turns
import AiGramLib.Store.Failures
import AiGramLib.Store.Products
import AiGramLib.Store.Rest
import AiGramLib.Store.Served
import AiGramLib.Store.Sorted
import AiGramLib.Purchases.Answered
import AiGramLib.Purchases.Secured
import AiGramLib.Purchases.Truthful
import AiGramLib.Purchases.Rest
import AiGramLib.Coding
import AiGramLib.App.Bought
