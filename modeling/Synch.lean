import Synch.Locks.Heal
import Synch.Locks.Tickets
import Synch.Locks.Exclusion
import Synch.Records.Agreement
import Synch.Proofs.Soundness
import Synch.Publication.Runs
import Synch.Transparency.Forged
import Synch.Transparency.Recompute
import Synch.Transparency.Reassembly
import Synch.Transparency.Classify
import Synch.Tree.Coherence
import Synch.Tree.Worktree
import Synch.Locks.Fencing
import Synch.Locks.Handoff
import Synch.Zone.Datagram
import Synch.Zone.Denial
import Synch.Provider.Converge
import Synch.Direct.Delivery
import Synch.Cloud.Complete
import Synch.S3.AccessKeys
import Synch.S3.Pages
import Synch.Uploads.Completion
import Synch.Uploads.Listing
import Synch.Writes.Budget
import Synch.Writes.Conditional
import Synch.Tuf.Civil
import Synch.Tuf.Anchored
import Synch.Hosting.Emptying
import Synch.S3.LockKeys
import Synch.Api.Slots
import Synch.Sock.Json
