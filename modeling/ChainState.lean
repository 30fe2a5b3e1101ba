import ChainState.Bytes
import ChainState.Bytes.Hex
import ChainState.Bytes.Fixed
import ChainState.Text.Utf8
import ChainState.SortedMap
import ChainState.Bencode
import ChainState.Bencode.Order
import ChainState.Bencode.Printer
import ChainState.Bencode.Reader
import ChainState.Crypto
import ChainState.Crypto.Sha256
import ChainState.Crypto.Sha512
import ChainState.Crypto.Ed25519
import ChainState.Crypto.Standard
import ChainState.Account
import ChainState.Transaction
import ChainState.Block
import ChainState.Vote
import ChainState.StateArray
import ChainState.Message
import ChainState.Checked
import ChainState.Consensus
import ChainState.Record.Key
import ChainState.Record.Height
import ChainState.Record.Links
import ChainState.Record.Span
import ChainState.Repository
import ChainState.Repository.Error
import ChainState.Repository.Query
import ChainState.Repository.Transition
import ChainState.Repository.Session
import ChainState.Ledger
import ChainState.Validation
import ChainState.Miner
import ChainState.Branch
import ChainState.Text.Decimal
import ChainState.Text.Blank
import ChainState.Wire.Payload
import ChainState.Wire.Envelope
import ChainState.Wire.Task
import ChainState.Node
import ChainState.Http.Json
import ChainState.Http.Submitted
import ChainState.Http.Route
import ChainState.Http.MediaType
import ChainState.Http.Reading
import ChainState.Http.Response
import ChainState.Http.Parameter
import ChainState.Http.Statistics
import ChainState.Http.Handler
import ChainState.Http.Service
import ChainState.Proofs.Maps
import ChainState.Proofs.Decimals
import ChainState.Proofs.Numerals
import ChainState.Proofs.Utf8
import ChainState.Proofs.Since
import ChainState.Proofs.Bencode.RoundTrip
import ChainState.Proofs.Bencode.Bounds
import ChainState.Proofs.Bencode.Nesting
import ChainState.Proofs.Bencode.SelfDelimiting
import ChainState.Proofs.Bencode.Grammar
import ChainState.Proofs.Records
import ChainState.Proofs.BlockForm
import ChainState.Proofs.Commitments
import ChainState.Proofs.Runs
import ChainState.Proofs.Layers
import ChainState.Proofs.Effects
import ChainState.Proofs.Threads
import ChainState.Proofs.Book
import ChainState.Proofs.Accounts
import ChainState.Proofs.Checks
import ChainState.Proofs.Retarget
import ChainState.Proofs.Eligibility
import ChainState.Proofs.Replay
import ChainState.Proofs.Connect
import ChainState.Proofs.Sealing
import ChainState.Proofs.Verdicts
import ChainState.Proofs.Laws
import ChainState.Proofs.Prune
import ChainState.Proofs.Forks
import ChainState.Proofs.Disconnect
import ChainState.Proofs.Rebase
import ChainState.Proofs.ForkChoice
import ChainState.Proofs.History
import ChainState.Proofs.BestChain
import ChainState.Proofs.Power
import ChainState.Proofs.NodeHistory
import ChainState.Proofs.Difficulty
import ChainState.Proofs.NodeSteps
import ChainState.Proofs.ValidChains
import ChainState.Proofs.Sessions
import ChainState.Proofs.Transfers
import ChainState.Proofs.Requests
import ChainState.Proofs.Balances
import ChainState.Proofs.Issued
import ChainState.Proofs.Received
import ChainState.Proofs.Envelopes
import ChainState.Proofs.Relayed
import ChainState.Proofs.Building
import ChainState.Proofs.Nonces
import ChainState.Proofs.Supply
import ChainState.Proofs.Reorganisation
import ChainState.Proofs.Overflow
import ChainState.Proofs.Values
import ChainState.Proofs.Inverses
import ChainState.Proofs.Convergence
import ChainState.Proofs.Keys
import ChainState.Proofs.KeyOrder
import ChainState.Proofs.Isolation
import ChainState.Proofs.HeightRows
import ChainState.Proofs.Hexadecimal
import ChainState.Proofs.FlushedRows
import ChainState.Proofs.Listings
import ChainState.Proofs.Atomicity
import ChainState.Proofs.Descent
import ChainState.Proofs.Lossless
import ChainState.Proofs.Guards
import ChainState.Proofs.ForkStorage
import ChainState.Proofs.Expiry
import ChainState.Proofs.Timeliness
import ChainState.Proofs.TaskOrder
import ChainState.Proofs.NodeRows
import ChainState.Proofs.Openings
import ChainState.Proofs.Resubmission
import ChainState.Proofs.Statistics
import ChainState.Proofs.HeightEdits
import ChainState.Proofs.Orphans
