import Wayfarer.Proofs.Shared
import Wayfarer.Proofs.Work
import Wayfarer.Scenario.Documents
import Wayfarer.Scenario.Play
import Wayfarer.Proofs.Desk
import Wayfarer.Proofs.History
import Wayfarer.Proofs.Wiring
import Wayfarer.Proofs.Wiring.Steps
import Wayfarer.Proofs.Minting
import Wayfarer.Proofs.Sound
import Wayfarer.Proofs.Sound.Removing
import Wayfarer.Proofs.Sound.Linking
import Wayfarer.Proofs.Sound.Operations
import Wayfarer.Proofs.Sound.Reclaiming
import Wayfarer.Proofs.Commit
import Wayfarer.Proofs.Commit.Integrity
import Wayfarer.Proofs.Commit.Drafts
import Wayfarer.Proofs.Concourse
import Wayfarer.Proofs.Concourse.Steps
import Wayfarer.Proofs.Concourse.Acts
import Wayfarer.Proofs.Concourse.Runs
import Wayfarer.Proofs.Concourse.Opening
import Wayfarer.Proofs.Concourse.Committed
import Wayfarer.Proofs.Caching
import Wayfarer.Proofs.Walking
import Wayfarer.Proofs.Walking.Refinement
import Wayfarer.Proofs.Walking.Trace
import Wayfarer.Proofs.View
import Wayfarer.Proofs.View.Search
import Wayfarer.Proofs.View.Graph
import Wayfarer.Proofs.View.Removing
import Wayfarer.Proofs.View.Reclaiming
import Wayfarer.Proofs.Confinement
import Wayfarer.Proofs.Confinement.Linking
import Wayfarer.Proofs.Confinement.Changing
import Wayfarer.Proofs.Confinement.Building
import Wayfarer.Proofs.Confinement.Operations
import Wayfarer.Proofs.Tenancy
import Wayfarer.Proofs.Tenancy.Gathering
import Wayfarer.Proofs.Tenancy.Storing
import Wayfarer.Proofs.Tenancy.Journal
import Wayfarer.Proofs.Tenancy.Walks
import Wayfarer.Proofs.Tenancy.Requests
import Wayfarer.Proofs.Tenancy.Reachable
import Wayfarer.Proofs.Discretion
import Wayfarer.Proofs.Discretion.Walks
import Wayfarer.Proofs.Codec
import Wayfarer.Proofs.Codec.Shapes
import Wayfarer.Proofs.Codec.AnchorFile
import Wayfarer.Proofs.Archive
import Wayfarer.Proofs.Archive.Exchange
import Wayfarer.Proofs.Archive.Opening
import Wayfarer.Proofs.Archive.Restarts
import Wayfarer.Proofs.Archive.Mishaps
import Wayfarer.Proofs.Archive.Undoing
import Wayfarer.Proofs.Archive.Repeats
import Wayfarer.Proofs.Archive.Crash
import Wayfarer.Proofs.Pruning
import Wayfarer.Proofs.Stock
import Wayfarer.Proofs.Assembly
import Wayfarer.Proofs.Archive.Recall
import Wayfarer.Proofs.Concourse.Sessions
import Wayfarer.Proofs.Concourse.Twins
import Wayfarer.Proofs.Archive.Epochs
import Wayfarer.Proofs.Ledger
import Wayfarer.Proofs.Roots
import Wayfarer.Proofs.Walking.Atomicity
import Wayfarer.Proofs.Conformity
import Wayfarer.Proofs.Failing
import Wayfarer.Proofs.Failing.Halves
import Wayfarer.Proofs.Json.Records
import Wayfarer.Proofs.Settings
import Wayfarer.Proofs.Walking.Disengaging
import Wayfarer.Proofs.View.Destroying
import Wayfarer.Proofs.Walking.Allowance
import Wayfarer.Proofs.Walking.Faults
import Wayfarer.Proofs.View.Finite
import Wayfarer.Proofs.View.Listing
import Wayfarer.Proofs.View.Incidence
import Wayfarer.Proofs.View.Reaching
import Wayfarer.Proofs.View.Disconnecting
import Wayfarer.Proofs.Taxonomy.Behaviors
import Wayfarer.Proofs.Taxonomy.Inheritance
import Wayfarer.Proofs.Taxonomy.Dispatch
import Wayfarer.Proofs.Commit.Publishing
import Wayfarer.Proofs.Cache
import Wayfarer.Proofs.Settings.Folder
import Wayfarer.Proofs.Settings.Partial
import Wayfarer.Proofs.Accounts
