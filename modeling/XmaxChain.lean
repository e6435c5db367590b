import XmaxChain.Types
import XmaxChain.Merkle
import XmaxChain.Lib.OrderedIndex
import XmaxChain.Lib.ParentWalk
import XmaxChain.Lib.Undo
import XmaxChain.Lib.FileStream
import XmaxChain.BlockPack
import XmaxChain.ChainStream
import XmaxChain.GenericIndex
import XmaxChain.Sessions
import XmaxChain.Dpos
import XmaxChain.LogRuns
import XmaxChain.ForkDb
import XmaxChain.ForkInv
import XmaxChain.ForkGrow
import XmaxChain.ForkRemove
import XmaxChain.ForkRun
import XmaxChain.Quorum
import XmaxChain.Lib.Table
import XmaxChain.Ledger
import XmaxChain.Voting
import XmaxChain.Contract
import XmaxChain.VoteTally
import XmaxChain.TrxContext
import XmaxChain.ExactlyOnce
import XmaxChain.Consent
import XmaxChain.Erc20
import XmaxChain.Erc721
import XmaxChain.Authority
import XmaxChain.Transaction
import XmaxChain.Conservation
import XmaxChain.Staking
import XmaxChain.Spending
import XmaxChain.GasPayer
import XmaxChain.Chain
import XmaxChain.Replay
import XmaxChain.Schedule
import XmaxChain.Slots
import XmaxChain.SigningKeys
import XmaxChain.Faults
import XmaxChain.LinkedAuth
import XmaxChain.Escapes
import XmaxChain.GasMeter
import XmaxChain.JsVm
import XmaxChain.Atomic
import XmaxChain.PendingQueue
import XmaxChain.ChainInv
import XmaxChain.ChainStep
import XmaxChain.CheckFork
import XmaxChain.ChainRun
import XmaxChain.Lineage
import XmaxChain.MainChain
import XmaxChain.Tapos
import XmaxChain.Restart
import XmaxChain.ForkTree
import XmaxChain.FailedRuns
import XmaxChain.Lib.CompositeIndex
import XmaxChain.RecordStore
import XmaxChain.RecordMap
import XmaxChain.RecordIteration
import XmaxChain.Lib.StreamReader
import XmaxChain.Raw
import XmaxChain.Abi
import XmaxChain.AbiRoundTrip
import XmaxChain.WriteQueue
import XmaxChain.MessageBuffer
import XmaxChain.Lib.StreamMachine
import XmaxChain.NetFraming
import XmaxChain.AuthorityRows
import XmaxChain.AuthTree
import XmaxChain.AuthChecker
import XmaxChain.Selection
import XmaxChain.DposWindow
import XmaxChain.Timestamps
import XmaxChain.RoundLists
import XmaxChain.MissedSlots
import XmaxChain.Uniqueness
import XmaxChain.TokenNames
import XmaxChain.TransactionJson
import XmaxChain.Dispatch
import XmaxChain.MessageQueue
import XmaxChain.ReceiveMemory
import XmaxChain.Lib.Decimal
import XmaxChain.AssetText
import XmaxChain.Lib.Paths
import XmaxChain.Lib.Fuel
import XmaxChain.AbiLoad
import XmaxChain.AbiDecode
import XmaxChain.AbiDepth
import XmaxChain.RefusedWrites
import XmaxChain.TableStorage
import XmaxChain.WasmMemory
import XmaxChain.PendingMessages
import XmaxChain.ConfirmationMarks
import XmaxChain.TablePaging
import XmaxChain.LongNames
import XmaxChain.ForkSwitch
import XmaxChain.DeliveryOrder
import XmaxChain.Handshakes
import XmaxChain.DuplicateLinks
import XmaxChain.Lib.DepthFirst
import XmaxChain.Plugins
import XmaxChain.CatchUp
import XmaxChain.HeadSchedule
import XmaxChain.BlockBuilder
import XmaxChain.ShortNames
