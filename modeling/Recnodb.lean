import Recnodb.Addressing
import Recnodb.Growth
import Recnodb.FailedExtension
import Recnodb.FaultLogic
import Recnodb.Creation
import Recnodb.Sizing
import Recnodb.BlockFaults
import Recnodb.ExtensionFrame
import Recnodb.ChainLayout
import Recnodb.SearchFaults
import Recnodb.Stability
import Recnodb.ChainFaults
import Recnodb.LockedArea
import Recnodb.WriteBack
import Recnodb.Handovers
import Recnodb.AutoIncrement
import Recnodb.Extents
import Recnodb.Outcomes
import Recnodb.NewHeads
import Recnodb.Restoration
import Recnodb.Appending
import Recnodb.Refusals
import Recnodb.Reopening
import Recnodb.Database
import Recnodb.Handles
import Recnodb.ChainWalk
import Recnodb.Capacity
import Recnodb.HeadPreparation
import Recnodb.HeadRewrites
import Recnodb.LastLinks
import Recnodb.ChainVisits
import Recnodb.Interaction.Rounds
import Recnodb.SearchEnds
import Recnodb.LockAnswers
import Recnodb.LockDiscipline
import Recnodb.NextOffset
import Recnodb.BlockContents
import Recnodb.BlockRuns
import Recnodb.Store
import Recnodb.Interaction.Threads
import Recnodb.AreaLocks
import Recnodb.SharedFile
import Recnodb.ConcurrentGrowth
import Recnodb.ConcurrentNumbers
import Recnodb.Interaction.Sections
import Recnodb.LockedSections
import Recnodb.RecordTable
import Recnodb.TableLifetimes
import Recnodb.ConcurrentRecords
import Recnodb.Interaction.Traces
import Recnodb.ErrorNumbers
import Recnodb.Sessions
import Recnodb.StoreLifetimes
import Recnodb.Departures
import Recnodb.ConcurrentStore
import Recnodb.SteadyChains
import Recnodb.UnlockedWalks
