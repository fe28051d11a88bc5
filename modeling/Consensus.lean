import Consensus.Cluster.Run
import Consensus.Config.Json
import Consensus.Proofs.Cycle.Fairness
import Consensus.Proofs.Ensemble.CommitRule
import Consensus.Proofs.Ensemble.Provenance
import Consensus.Proofs.Ensemble.Safety
import Consensus.Proofs.Life.Acknowledgement
import Consensus.Proofs.Life.Office
import Consensus.Proofs.Life.Patience
import Consensus.Proofs.Life.Redelivery
import Consensus.Proofs.Life.Renewal
import Consensus.Proofs.Log.PlainList
import Consensus.Proofs.Machine.Sums
import Consensus.Proofs.Replication.CatchUp
import Consensus.Proofs.Replication.Majority
import Consensus.Proofs.Storage.Torn
