import Cheget.Crypto.Feldman
import Cheget.Transport.Encoding
import Cheget.Session.BlindSign
import Cheget.Session.Spent
import Cheget.Session.Honest
import Cheget.Session.Isolation
import Cheget.Session.NonceUse
import Cheget.Session.Transcript
import Cheget.Session.Totals
import Cheget.Session.Poll
import Cheget.Bridge.OutputKey
import Cheget.Coordinator.Open
import Cheget.Coordinator.Answers
import Cheget.Cli.BadHex
import Cheget.Cli.Spend
import Cheget.Cli.Labels
import Cheget.Cli.RoundTrip
import Cheget.Cli.Status
import Cheget.Store.Torn
import Cheget.Store.AllOrNothing
import Cheget.Store.Durable
import Cheget.Store.Confined
import Cheget.Store.Listing
import Cheget.Store.Bound
import Cheget.Store.Maps
import Cheget.Store.Authored
import Cheget.Store.Index
import Cheget.Store.Spelling
