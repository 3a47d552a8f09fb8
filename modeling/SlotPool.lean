import SlotPool.Drill
import SlotPool.Main
import SlotPool.Script.Run
import SlotPool.Proofs.Links
import SlotPool.Proofs.Spans
import SlotPool.Proofs.Family
import SlotPool.Proofs.Layout
import SlotPool.Proofs.Partition
import SlotPool.Proofs.World
import SlotPool.Proofs.Calls
import SlotPool.Proofs.Runs
import SlotPool.Proofs.Holding
import SlotPool.Proofs.Conservation
import SlotPool.Proofs.Clean
import SlotPool.Proofs.Vetted
import SlotPool.Proofs.Tended
import SlotPool.Proofs.Ownership
import SlotPool.Proofs.Ledger
import SlotPool.Proofs.Accounts
import SlotPool.Proofs.Balance
import SlotPool.Proofs.Clients
import SlotPool.Proofs.Sessions
import SlotPool.Proofs.Contracts
import SlotPool.Proofs.Crews
import SlotPool.Proofs.Guard
import SlotPool.Proofs.Attempts
import SlotPool.Proofs.Sparing
import SlotPool.Proofs.Custody
import SlotPool.Proofs.Returns
import SlotPool.Proofs.Lines
import SlotPool.Proofs.Configs
import SlotPool.Proofs.Values
import SlotPool.Proofs.Foreign
import SlotPool.Proofs.Misplaced
import SlotPool.Proofs.Snapshots
import SlotPool.Proofs.Alone
import SlotPool.Proofs.Sizings
import SlotPool.Proofs.Dumps
import SlotPool.Proofs.Verdict
import SlotPool.Proofs.Provisions
import SlotPool.Proofs.Underway
import SlotPool.Proofs.Bulk
import SlotPool.Proofs.Deliveries
import SlotPool.Proofs.Setbacks
import SlotPool.Proofs.Refills
import SlotPool.Proofs.Singles
import SlotPool.Proofs.Mergers
import SlotPool.Proofs.Quotas
import SlotPool.Proofs.Insertion
import SlotPool.Proofs.Sorting
import SlotPool.Proofs.Capacity
import SlotPool.Proofs.Faults
import SlotPool.Proofs.Oversize
import SlotPool.Proofs.Refusals
import SlotPool.Proofs.Additions
import SlotPool.Proofs.Passages
import SlotPool.Proofs.Building
import SlotPool.Proofs.Draws
import SlotPool.Proofs.Journal
import SlotPool.Proofs.Chronicles
import SlotPool.Proofs.Literals
import SlotPool.Proofs.Tiles
import SlotPool.Proofs.Walks
import SlotPool.Proofs.Amendments
import SlotPool.Proofs.Pages
import SlotPool.Proofs.Readers
import SlotPool.Proofs.Settings
