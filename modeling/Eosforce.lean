import Eosforce.Budget.Outcome
import Eosforce.Budget.Receiver
import Eosforce.Budget.Votes
import Eosforce.Chain.Liveness
import Eosforce.Chain.Pledges
import Eosforce.Chain.Spending
import Eosforce.Freeze.Activation
import Eosforce.Freeze.History
import Eosforce.Freeze.Size
import Eosforce.Msig.History
import Eosforce.Pledge.History
import Eosforce.System.BlockCount
import Eosforce.System.BlockOut
import Eosforce.System.BpClaim
import Eosforce.System.ClaimOrder
import Eosforce.System.DrainNum
import Eosforce.System.DrainRevise
import Eosforce.System.DrainRun
import Eosforce.System.Election
import Eosforce.System.Exit
import Eosforce.System.Expiry
import Eosforce.System.GlobalStake
import Eosforce.System.LastProducers
import Eosforce.System.Liveness
import Eosforce.System.Order
import Eosforce.System.PunishDeal
import Eosforce.System.RamVotes
import Eosforce.System.RewardBps
import Eosforce.System.Sentence
import Eosforce.System.Stability
import Eosforce.System.Unstaking
import Eosforce.System.Versions
import Eosforce.System.Votefix
import Eosforce.Token.History
import Eosforce.Tools.Pipeline
