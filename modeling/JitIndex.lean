import JitIndex.Gate.Session
import JitIndex.Proofs.Blocks
import JitIndex.Proofs.Collection
import JitIndex.Proofs.Consistency
import JitIndex.Proofs.Discipline
import JitIndex.Proofs.Frame.Finishing
import JitIndex.Proofs.Frame.Resuming
import JitIndex.Proofs.Frame.Scanning
import JitIndex.Proofs.Gate.Tally
import JitIndex.Proofs.GracePeriod
import JitIndex.Proofs.HandingBack
import JitIndex.Proofs.Index.Rounds
import JitIndex.Proofs.Iteration
import JitIndex.Proofs.Overrun
import JitIndex.Proofs.Ownership
import JitIndex.Proofs.Reclaiming
import JitIndex.Proofs.Refinement
import JitIndex.Proofs.Refusal
import JitIndex.Proofs.SkipList.Accounting
import JitIndex.Proofs.SkipList.Bindings
import JitIndex.Proofs.SkipList.Heights
import JitIndex.Proofs.SkipList.Levels
import JitIndex.Proofs.SkipList.Trail
import JitIndex.Proofs.Slot.Addressing
import JitIndex.Proofs.Slot.Keeping
import JitIndex.Session.Step
import JitIndex.SkipList.Session
