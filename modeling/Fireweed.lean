import Fireweed.QueueClaim
import Fireweed.QueueAdministration.Selectors
import Fireweed.QueueContract.Responses
import Fireweed.QueuePublication
import Fireweed.QueuePlanner.Leases
import Fireweed.QueuePlanner.UniqueOwnership
import Fireweed.QueuePlanner.SelectiveRefinement
import Fireweed.Metadata
import Fireweed.FenceSafety
import Fireweed.ByteAdmission.Conservation
import Fireweed.ByteAdmission.Scheduling
import Fireweed.QueueCounters
import Fireweed.QueueGate.Serialization
import Fireweed.Coordination.FenceProgress
import Fireweed.Coordination.SequencerOrder
import Fireweed.QueueUniqueStream
import Fireweed.QueueSourceIndex.Decoding
import Fireweed.QueueSourceIndex.FieldSelection
import Fireweed.CommandLog
import Fireweed.SlotAdmission.Fairness
import Fireweed.Projection.ClaimUnits
