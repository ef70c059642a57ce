import Lij.Foundation.Fallible
import Lij.Joinstr.Basic
import Lij.Joinstr.Keys
import Lij.Joinstr.Sign
import Lij.Foundation.Words
import Lij.Tatara.Rederive
import Lij.Tatara.Machine
import Lij.Tatara.Moves
import Lij.Tatara.WriteAhead
import Lij.Tatara.Instance
import Lij.Foundation.Network
import Lij.Tatara.Views
import Lij.Tatara.Agreement
import Lij.Tier2.Ledger
import Lij.Storage
import Lij.Node.Books
import Lij.Tier2.Sync
import Lij.Tier2.Fetch
import Lij.Tier2.Answers
import Lij.Foundation.Folds
import Lij.Tier2.Chain
import Lij.Tier2.Reorg
import Lij.Tier2.Facts
import Lij.Tier2.Walk
import Lij.Tier2.NewestFirst
import Lij.Tier2.Pending
import Lij.CoinSelect
import Lij.OnchainSend.Plan
import Lij.OnchainSend.Conserve
import Lij.Bitcoin.Weight
import Lij.ChannelOpen
import Lij.OnchainSend.Size
import Lij.OnchainSend.FeeRate
import Lij.Foundation.Writes
import Lij.Tatara.Records
import Lij.Tatara.Store
import Lij.Tatara.Holds
import Lij.Tatara.PoolChange
import Lij.Tatara.Phone
import Lij.Foundation.Sessions
import Lij.Tatara.Heard
import Lij.Tatara.PhoneSteps
import Lij.Tatara.Driver
import Lij.Tatara.PhoneInstance
import Lij.Foundation.Json
import Lij.KitMerge
import Lij.Node.Mpp
import Lij.ChannelMax
import Lij.Backup.Restore
import Lij.Backup.Cloud
import Lij.Backup.Dirty
import Lij.Foundation.Curve
import Lij.SilentPayment.Model
import Lij.SilentPayment.Agree
import Lij.Tatara.Draws
import Lij.Tatara.MessageDraws
import Lij.Tatara.Nonces
import Lij.Tatara.Strangers
import Lij.Tatara.Amounts
import Lij.Tatara.ExitChain
import Lij.Joinstr.Pool
import Lij.Tatara.Quote
import Lij.Tatara.Required
import Lij.Tatara.Closing
import Lij.Tatara.Turns
import Lij.Tatara.Completes
import Lij.Tatara.Rechecks
import Lij.Tatara.Gathers
import Lij.Node.OnchainPay
import Lij.Node.PayLocks
import Lij.Node.PayEndings
import Lij.Node.PaySecrets
import Lij.Tatara.Addresses
import Lij.Tatara.Arrival
import Lij.Tatara.Duty
import Lij.Tatara.Mine
import Lij.Tatara.Bump
import Lij.Tier2.WellFormed
import Lij.Tier2.HistorySum
import Lij.Tier2.Release
import Lij.OnchainSend.Surfaces
import Lij.CoinSets
import Lij.PersistedCounter
import Lij.ChannelQuote
import Lij.OnchainSend.CoinQuote
import Lij.Tier2.Down
import Lij.ColdStart
import Lij.ChainCoordinator
import Lij.Node.ReleaseFee
import Lij.Backup.OnePhone
import Lij.CancelledOpen
import Lij.Node.Push
import Lij.KitTrim
