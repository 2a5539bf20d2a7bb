import Lachesis.Utils.Bits
import Lachesis.Utils.Migration
import Lachesis.Inter.ValidatorsBuilder
import Lachesis.Inter.EventReceiver
import Lachesis.Inter.ParentsSpace
import Lachesis.Eventcheck.Gaspowercheck
import Lachesis.Vector.Chains
import Lachesis.Vector.RobustMedian
import Lachesis.Poset.RootStore
import Lachesis.Poset.ConsensusTime
import Lachesis.Poset.Ladder
import Lachesis.Poset.Restart
import Lachesis.Gossip.Packsdownloader
import Lachesis.Gossip.Filters
import Lachesis.Gossip.GasRefunds
import Lachesis.Inter.Ancestor
import Lachesis.Poset.ElectionErrors
import Lachesis.Gossip.Dropping
import Lachesis.Gossip.PackCounts
import Lachesis.Gossip.Fetcher
import Lachesis.Gossip.LastHeaders
import Lachesis.Gossip.OccuredTxs
import Lachesis.Gossip.TxTurns
import Lachesis.App.Scores
import Lachesis.App.Poi
